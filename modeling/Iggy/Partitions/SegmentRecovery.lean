import Iggy.Partitions.PollPlan

/-!
# Recovering a segment at boot

Source: partitions/src/segment_recovery.rs:763-805, 946-977, 1580-2762, 2849-2985;
iggy_index_reader.rs:63-130.

`recover_segment_bounds` finds how much of a segment's log can be served and whether its sparse
index still describes the log. Pass C of `load_persisted_segments_with_checkpoint` then cuts the log
to these bounds and cuts or replaces the index. The scan windows buffer the file and do not change
what is read. A read that fails ends the boot and is left out, as are the log lines.
-/

namespace Iggy.SegmentRecovery

open Lib Batch
open Poll (IggyIndex iggyIndexSize saturate)

/-- `MAX_RECOVERABLE_BATCH_BYTES`: `MAX_MESSAGE_SIZE_UPPER_BYTES` and a batch header. -/
def maxRecoverableBatchBytes : Nat := 256 * 1024 * 1024 + Batch.headerSize

def rebuiltIndexStrideBytes : Nat := 64 * 1024
def maxFsyncedIndexStepBackEntries : Nat := 1
def maxIndexAnchorProbeEntries : Nat := 4096
def probeBudgetUnitsPerResidueByte : Nat := 2
def probeVerifyBudgetBytesPerResidueByte : Nat := 4

/-- `PartitionRecoveryRefusal`, those that the bytes of one segment raise. -/
inductive PartitionRecoveryRefusal
  | interiorDamage (startOffset damagePosition survivorPosition : Nat)
  | unverifiedResidue (startOffset damagePosition residueBytes candidatesExamined budgetUnits
      verifiedBytes verifyBudgetBytes : Nat)
  | offsetDiscontinuity (startOffset expectedOffset foundOffset position : Nat)
  | foreignBatch (startOffset batchPartitionId position : Nat)
  | fsyncedLogLoss (startOffset entryCount provableEntries provablePosition searchedEntries : Nat)
  | fsyncedRebuildShortfall (startOffset entryCount walkedPosition durablePosition : Nat)
  deriving DecidableEq

abbrev Recovery := Except PartitionRecoveryRefusal

/-- The two files of a segment. The length of a file is a `u64`. -/
structure SegmentFiles where
  log : Bytes
  index : Bytes
  log_lt : log.length < 2 ^ 64

/-! ## The work budget of the probes -/

structure ProbeBudget where
  limitUnits : Nat := 0
  spentUnits : Nat := 0
  verifyLimitBytes : Nat := 0
  verifySpentBytes : Nat := 0
  deriving DecidableEq

namespace ProbeBudget

variable (budget : ProbeBudget)

def growForResidue (residueBytes : Nat) : ProbeBudget :=
  { budget with
    limitUnits :=
      saturate (budget.limitUnits + saturate (residueBytes * probeBudgetUnitsPerResidueByte))
    verifyLimitBytes :=
      saturate (budget.verifyLimitBytes +
        saturate (residueBytes * probeVerifyBudgetBytesPerResidueByte)) }

def chargeCandidate : Bool × ProbeBudget :=
  let spent := saturate (budget.spentUnits + 1)
  (spent ≤ budget.limitUnits, { budget with spentUnits := spent })

def chargeVerify (sliceBytes : Nat) : Bool × ProbeBudget :=
  let spent := saturate (budget.verifySpentBytes + sliceBytes)
  (spent ≤ budget.verifyLimitBytes, { budget with verifySpentBytes := spent })

end ProbeBudget

def unverifiedResidue (log : Bytes) (startOffset damagePosition : Nat) (budget : ProbeBudget) :
    PartitionRecoveryRefusal :=
  .unverifiedResidue startOffset damagePosition (log.length - damagePosition) budget.spentUnits
    budget.limitUnits budget.verifySpentBytes budget.verifyLimitBytes

/-! ## The index file -/

def indexWidths : List Nat := [8, 8, 8]

/-- `push_index_entry`, the bytes it appends. -/
def entryBytes (e : IggyIndex) : Bytes :=
  packFields indexWidths [e.offset, e.timestamp, e.position]

def readEntry (bytes : Bytes) : IggyIndex :=
  match unpackFields indexWidths bytes with
  | [offset, timestamp, position] => ⟨offset, timestamp, position⟩
  | _ => ⟨0, 0, 0⟩

/-- The whole entries of an index file; a trailing partial one is ignored. -/
def indexEntries (index : Bytes) : List IggyIndex :=
  (List.range (index.length / iggyIndexSize)).map fun i => readEntry (chunkAt iggyIndexSize index i)

/-! ## Batches in the log -/

def sliceAt (log : Bytes) (position len : Nat) : Option Bytes :=
  if position + len ≤ log.length then some ((log.drop position).take len) else none

def peekHeader (log : Bytes) (position : Nat) : Option Header :=
  (sliceAt log position headerSize).bind fun bytes =>
    (Header.decode bytes).toOption.filter fun header =>
      header.batchLength ≤ maxRecoverableBatchBytes

section Walks

variable (xxh3 : Bytes → UInt64) (partitionId : Nat)

def batchVerifies (log : Bytes) (position totalSize : Nat) : Bool :=
  (sliceAt log position totalSize).any fun batch => (decodeBatchSlice xxh3 batch).isOk

/-- The batch at a position, unless the walks stop there: nothing decodes, the extent runs past the
file, or the checksum is wrong. -/
def provenBatchAt (log : Bytes) (position : Nat) : Option Header :=
  (peekHeader log position).filter fun header =>
    position + header.batchLength ≤ log.length ∧
      batchVerifies xxh3 log position header.batchLength = true

/-- The offset a batch leaves the chain at. -/
def expectedAfter (expected : Nat) (header : Header) : Nat :=
  if 0 < header.messageCount then
    saturate (saturate (header.baseOffset + (header.messageCount - 1)) + 1)
  else expected

/-- The loop of both walks. They differ in what they collect and in what a verified batch at an
unexpected offset means. -/
structure Walker (σ : Type) where
  position : σ → Nat
  expected : σ → Nat
  accept : σ → Header → σ
  mismatch : σ → Header → Recovery σ
  position_accept : ∀ s header, position (accept s header) = position s + header.batchLength
  expected_accept : ∀ s header, expected (accept s header) = expectedAfter (expected s) header
  mismatch_eq_ok : ∀ {s header s'}, mismatch s header = .ok s' → s' = s

/-- The walk. Every turn moves on, so it ends within `fuel` turns where that is the length of the
file. -/
def Walker.walk {σ : Type} (walker : Walker σ) (log : Bytes) (startOffset : Nat) :
    (fuel : Nat) → σ → Recovery σ
  | 0, s => .ok s
  | fuel + 1, s =>
    if walker.position s < log.length then
      match provenBatchAt xxh3 log (walker.position s) with
      | none => .ok s
      | some header =>
        if header.partitionId ≠ partitionId then
          .error (.foreignBatch startOffset header.partitionId (walker.position s))
        else if header.baseOffset ≠ walker.expected s then walker.mismatch s header
        else walker.walk log startOffset fuel (walker.accept s header)
    else .ok s

/-! ## The walk from byte 0 -/

/-- The state of the loop of `recover_by_walking_log`. -/
structure LogWalk where
  position : Nat
  startTimestamp : Option Nat
  endOffset : Nat
  endTimestamp : Nat
  expectedOffset : Nat
  rebuiltIndex : Bytes
  lastIndexedPosition : Option Nat
  deriving DecidableEq

namespace LogWalk

def start (startOffset : Nat) : LogWalk := ⟨0, none, startOffset, 0, startOffset, [], none⟩

/-- Whether the batch at the current position gets an entry. -/
def indexes (w : LogWalk) : Bool :=
  w.lastIndexedPosition.all fun indexed => rebuiltIndexStrideBytes ≤ w.position - indexed

def accept (w : LogWalk) (header : Header) : LogWalk :=
  if 0 < header.messageCount then
    { position := w.position + header.batchLength
      startTimestamp := some (w.startTimestamp.getD header.baseTimestamp)
      endOffset := saturate (header.baseOffset + (header.messageCount - 1))
      endTimestamp := header.baseTimestamp
      expectedOffset := saturate (saturate (header.baseOffset + (header.messageCount - 1)) + 1)
      rebuiltIndex :=
        if w.indexes then
          w.rebuiltIndex ++ entryBytes ⟨header.baseOffset, header.baseTimestamp, w.position⟩
        else w.rebuiltIndex
      lastIndexedPosition := if w.indexes then some w.position else w.lastIndexedPosition }
  else { w with position := w.position + header.batchLength }

def walker (startOffset : Nat) : Walker LogWalk where
  position := LogWalk.position
  expected := LogWalk.expectedOffset
  accept := LogWalk.accept
  mismatch w header :=
    .error (.offsetDiscontinuity startOffset w.expectedOffset header.baseOffset w.position)
  position_accept w header := by
    unfold LogWalk.accept
    split <;> rfl
  expected_accept w header := by
    unfold LogWalk.accept expectedAfter
    split <;> rfl
  mismatch_eq_ok := nofun

end LogWalk

/-! ## The damage probe -/

inductive ProbeOutcome
  | survivor (position : Nat)
  | noSurvivor
  | budgetExhausted
  deriving DecidableEq

/-- Whether a batch extends the chain the walk proved, or starts at or above the segment where it
proved none. -/
def advancesChain (chainEndOffset : Option Nat) (startOffset baseOffset : Nat) : Bool :=
  match chainEndOffset with
  | none => startOffset ≤ baseOffset
  | some chainEnd => chainEnd < baseOffset

/-- A candidate that decodes, advances the chain, fits the file and is not empty. -/
def plausibleAt (log : Bytes) (chainEndOffset : Option Nat) (startOffset candidate : Nat) :
    Option Header :=
  (Header.decode ((log.drop candidate).take headerSize)).toOption.filter fun header =>
    advancesChain chainEndOffset startOffset header.baseOffset = true ∧
      header.batchLength ≤ maxRecoverableBatchBytes ∧
      candidate + header.batchLength ≤ log.length ∧ 0 < header.messageCount

/-- `probe_for_survivor`, the candidates from `candidate` on. -/
def probeForSurvivor (log : Bytes) (chainEndOffset : Option Nat) (startOffset : Nat) :
    (fuel candidate : Nat) → ProbeBudget → ProbeOutcome × ProbeBudget
  | 0, _, budget => (.noSurvivor, budget)
  | fuel + 1, candidate, budget =>
    if candidate + headerSize ≤ log.length then
      let (granted, budget) := budget.chargeCandidate
      if granted then
        match plausibleAt log chainEndOffset startOffset candidate with
        | none => probeForSurvivor log chainEndOffset startOffset fuel (candidate + 1) budget
        | some header =>
          let (granted, budget) := budget.chargeVerify header.batchLength
          if granted then
            if batchVerifies xxh3 log candidate header.batchLength then
              (.survivor candidate, budget)
            else probeForSurvivor log chainEndOffset startOffset fuel (candidate + 1) budget
          else (.budgetExhausted, budget)
      else (.budgetExhausted, budget)
    else (.noSurvivor, budget)

def refuseIfSurvivorPastDamage (log : Bytes) (damagePosition : Nat)
    (chainEndOffset : Option Nat) (startOffset : Nat) (budget : ProbeBudget) :
    Recovery ProbeBudget :=
  if log.length ≤ damagePosition then .ok budget
  else
    match probeForSurvivor xxh3 log chainEndOffset startOffset log.length (damagePosition + 1)
      (budget.growForResidue (log.length - damagePosition)) with
    | (.survivor position, _) => .error (.interiorDamage startOffset damagePosition position)
    | (.budgetExhausted, budget) => .error (unverifiedResidue log startOffset damagePosition budget)
    | (.noSurvivor, budget) => .ok budget

/-! ## Bounds from the log alone -/

structure WalkedBounds where
  startTimestamp : Nat
  endTimestamp : Nat
  endOffset : Nat
  messagesSize : Nat
  indexSize : Nat
  rebuiltIndex : Option Bytes
  deriving DecidableEq

/-- The bounds a finished walk from byte 0 stands for; none where it met no message. -/
def LogWalk.bounds (w : LogWalk) : Option WalkedBounds :=
  w.startTimestamp.map fun startTimestamp =>
    ⟨startTimestamp, w.endTimestamp, w.endOffset, w.position, w.rebuiltIndex.length,
      some w.rebuiltIndex⟩

def recoverByWalkingLog (log : Bytes) (startOffset : Nat) (budget : ProbeBudget) :
    Recovery (Option WalkedBounds × ProbeBudget) := do
  let w ← (LogWalk.walker startOffset).walk xxh3 partitionId log startOffset log.length
    (.start startOffset)
  let budget ← refuseIfSurvivorPastDamage xxh3 log w.position
    (w.startTimestamp.map fun _ => w.endOffset) startOffset budget
  .ok (w.bounds, budget)

/-! ## The walk from an index entry -/

/-- `AnchoredWalk`, with the state of the loop that fills it. -/
structure AnchoredWalk where
  startTimestamp : Option Nat
  endOffset : Nat
  endTimestamp : Nat
  position : Nat
  expectedOffset : Nat
  expectationFromLog : Bool
  deriving DecidableEq

namespace AnchoredWalk

def start (anchor : IggyIndex) : AnchoredWalk :=
  ⟨none, anchor.offset, anchor.timestamp, anchor.position, anchor.offset, false⟩

def accept (w : AnchoredWalk) (header : Header) : AnchoredWalk :=
  if 0 < header.messageCount then
    { startTimestamp := some (w.startTimestamp.getD header.baseTimestamp)
      endOffset := saturate (header.baseOffset + (header.messageCount - 1))
      endTimestamp := header.baseTimestamp
      position := w.position + header.batchLength
      expectedOffset := saturate (saturate (header.baseOffset + (header.messageCount - 1)) + 1)
      expectationFromLog := true }
  else { w with position := w.position + header.batchLength, expectationFromLog := true }

/-- A batch that contradicts the entry the walk started from ends it; one that contradicts the log
is refused. -/
def walker (startOffset : Nat) : Walker AnchoredWalk where
  position := AnchoredWalk.position
  expected := AnchoredWalk.expectedOffset
  accept := AnchoredWalk.accept
  mismatch w header :=
    if w.expectationFromLog then
      .error (.offsetDiscontinuity startOffset w.expectedOffset header.baseOffset w.position)
    else .ok w
  position_accept w header := by
    unfold AnchoredWalk.accept
    split <;> rfl
  expected_accept w header := by
    unfold AnchoredWalk.accept expectedAfter
    split <;> rfl
  mismatch_eq_ok {w header w'} h := by
    split_ifs at h
    exact (Except.ok.inj h).symm

end AnchoredWalk

def walkChainFromAnchor (log : Bytes) (startOffset : Nat) (anchor : IggyIndex) :
    Recovery AnchoredWalk :=
  (AnchoredWalk.walker startOffset).walk xxh3 partitionId log startOffset log.length
    (.start anchor)

/-! ## The index against the log -/

def entryMatches (log : Bytes) (e : IggyIndex) : Bool :=
  (peekHeader log e.position).any fun header =>
    header.partitionId = partitionId ∧ header.baseOffset = e.offset ∧
      header.baseTimestamp = e.timestamp ∧ 0 < header.messageCount ∧
      e.position + header.batchLength ≤ log.length

structure IndexValidation where
  structurallyConsistent : Bool
  mappingsMatch : Bool
  deriving DecidableEq

/-- The loop of `index_is_consistent` over the entries left. -/
def validateEntries (log : Bytes) (startOffset : Nat) :
    (previous : Option IggyIndex) → (mappingsMatch : Bool) → List IggyIndex → IndexValidation
  | _, mappingsMatch, [] => ⟨true, mappingsMatch⟩
  | previous, mappingsMatch, e :: es =>
    if previous.any fun p => e.offset ≤ p.offset ∨ e.position ≤ p.position then ⟨false, false⟩
    else if previous = none ∧ (e.offset ≠ startOffset ∨ e.position ≠ 0) then ⟨false, false⟩
    else validateEntries log startOffset (some e)
      (mappingsMatch && entryMatches partitionId log e) es

def indexIsConsistent (log : Bytes) (startOffset : Nat) (entries : List IggyIndex) :
    IndexValidation :=
  validateEntries partitionId log startOffset none true entries

structure IndexAnchorSearch where
  provableEntries : Nat
  provablePosition : Nat
  searchedEntries : Nat
  deriving DecidableEq

/-- `find_provable_index_anchor`, over the entries below the last one, the highest first. -/
def findProvableIndexAnchor (log : Bytes) (startOffset : Nat) :
    List IggyIndex → (budgetedDownTo searchedEntries : Nat) → ProbeBudget →
      Recovery (IndexAnchorSearch × ProbeBudget)
  | [], _, searched, budget => .ok (⟨0, 0, searched⟩, budget)
  | e :: below, budgetedDownTo, searched, budget =>
    let onward (budgetedDownTo : Nat) (budget : ProbeBudget) :=
      if searched + 1 = maxIndexAnchorProbeEntries then .ok (⟨0, 0, searched + 1⟩, budget)
      else findProvableIndexAnchor log startOffset below budgetedDownTo (searched + 1) budget
    if e.position < log.length then
      let budget := budget.growForResidue (budgetedDownTo - e.position)
      match (peekHeader log e.position).filter fun header =>
          header.partitionId = partitionId ∧ header.baseOffset = e.offset ∧
            0 < header.messageCount ∧ e.position + header.batchLength ≤ log.length with
      | none => onward e.position budget
      | some header =>
        let (granted, budget) := budget.chargeVerify header.batchLength
        if granted then
          if batchVerifies xxh3 log e.position header.batchLength then
            .ok (⟨below.length + 1, e.position, searched + 1⟩, budget)
          else onward e.position budget
        else .error (unverifiedResidue log startOffset e.position budget)
    else onward budgetedDownTo budget

/-! ## The bounds of a segment -/

def ensureFsyncedRebuildReaches (rebuilt : Option WalkedBounds)
    (startOffset entryCount durablePosition : Nat) : Recovery Unit :=
  let walkedPosition := (rebuilt.map WalkedBounds.messagesSize).getD 0
  require (durablePosition ≤ walkedPosition)
    (.fsyncedRebuildShortfall startOffset entryCount walkedPosition durablePosition)

/-- Rebuild an index that the log does not back; under `durable_segments` the rebuild has to reach
its last entry. -/
def rebuildIndex (log : Bytes) (startOffset : Nat) (durableSegments : Bool)
    (entryCount durablePosition : Nat) (budget : ProbeBudget) :
    Recovery (Option WalkedBounds × ProbeBudget) := do
  let (rebuilt, budget) ← recoverByWalkingLog xxh3 partitionId log startOffset budget
  if durableSegments then
    ensureFsyncedRebuildReaches rebuilt startOffset entryCount durablePosition
  .ok (rebuilt, budget)

/-- The gate before rebuilding an index whose last entry the log does not back. -/
def measureStepBack (log : Bytes) (startOffset : Nat) (durableSegments : Bool)
    (entries : List IggyIndex) (budget : ProbeBudget) : Recovery ProbeBudget :=
  if durableSegments then do
    let (search, budget) ← findProvableIndexAnchor xxh3 partitionId log startOffset
      entries.dropLast.reverse log.length 0 budget
    require (entries.length - search.provableEntries ≤ maxFsyncedIndexStepBackEntries)
      (.fsyncedLogLoss startOffset entries.length search.provableEntries search.provablePosition
        search.searchedEntries)
    .ok budget
  else .ok budget

/-- An index that is consistent and whose entries match: without `durable_segments` the log is
walked whole, with it from the last entry on. -/
def acceptIndex (log : Bytes) (startOffset : Nat) (durableSegments : Bool) (first : IggyIndex)
    (entryCount : Nat) (walk : AnchoredWalk) (budget : ProbeBudget) :
    Recovery (Option WalkedBounds × ProbeBudget) :=
  if durableSegments then do
    let budget ← refuseIfSurvivorPastDamage xxh3 log walk.position (some walk.endOffset)
      startOffset budget
    .ok (some ⟨first.timestamp, walk.endTimestamp, walk.endOffset, walk.position,
      entryCount * iggyIndexSize, none⟩, budget)
  else do
    let full ← walkChainFromAnchor xxh3 partitionId log startOffset first
    match full.startTimestamp with
    | some startTimestamp =>
      if full.position = log.length then
        .ok (some ⟨startTimestamp, full.endTimestamp, full.endOffset, full.position,
          entryCount * iggyIndexSize, none⟩, budget)
      else recoverByWalkingLog xxh3 partitionId log startOffset budget
    | none => recoverByWalkingLog xxh3 partitionId log startOffset budget

def recoverSegmentBounds (files : SegmentFiles) (startOffset : Nat) (durableSegments : Bool)
    (budget : ProbeBudget) : Recovery (Option WalkedBounds × ProbeBudget) :=
  let entries := indexEntries files.index
  match entries.head?, entries.getLast? with
  | some first, some last =>
    let validation := indexIsConsistent partitionId files.log startOffset entries
    if validation.structurallyConsistent then do
      let walk ← walkChainFromAnchor xxh3 partitionId files.log startOffset last
      if walk.startTimestamp = none then do
        let budget ← measureStepBack xxh3 partitionId files.log startOffset durableSegments entries
          budget
        rebuildIndex xxh3 partitionId files.log startOffset durableSegments entries.length
          last.position budget
      else if validation.mappingsMatch then
        acceptIndex xxh3 partitionId files.log startOffset durableSegments first entries.length walk
          budget
      else
        rebuildIndex xxh3 partitionId files.log startOffset durableSegments entries.length
          last.position budget
    else recoverByWalkingLog xxh3 partitionId files.log startOffset budget
  | _, _ =>
    if 0 < files.log.length then
      recoverByWalkingLog xxh3 partitionId files.log startOffset budget
    else .ok (none, budget)

end Walks

/-! ## Applying the bounds -/

namespace SegmentFiles

/-- Pass C cut between the log and the index. Files that hold no batch are moved aside and replaced
by empty ones. -/
def cutPlan (files : SegmentFiles) : Option WalkedBounds → SegmentFiles
  | none => ⟨[], files.index, by decide⟩
  | some b => ⟨files.log.take b.messagesSize, files.index,
      (List.length_take_le' ..).trans_lt files.log_lt⟩

/-- Pass C over one segment. -/
def applyPlan (files : SegmentFiles) : Option WalkedBounds → SegmentFiles
  | none => ⟨[], [], by decide⟩
  | some b => { files.cutPlan (some b) with
      index := b.rebuiltIndex.getD (files.index.take b.indexSize) }

end SegmentFiles

end Iggy.SegmentRecovery
