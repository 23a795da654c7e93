import Iggy.Partitions.RecoveryConverges

/-!
# Loading the segments of a partition

Source: segment_anchor.rs:55-205; partitions/src/segment_recovery.rs:563-868, 1042-1215.

`load_persisted_segments` bounds every segment first (pass A), then checks that the bounds make one
chain of offsets (pass B), and changes the files only then (pass C). Files go by the start offset in
their names, one of each kind for a start offset. What `recoverSegmentBounds` says about the log of
one segment is `BoundsSound`.
-/

namespace Iggy.SegmentRecovery

open List Lib Batch LogWalk WalkedBounds
open Poll (IggyIndex iggyIndexSize saturate wordMax)

/-! ## Segment anchors -/

/-- The gap before a segment that a boot planted: the segment it sealed ends at `sealedEnd`. -/
structure SegmentAnchor where
  plantedStart : Nat
  sealedStart : Nat
  sealedEnd : Nat
  deriving DecidableEq

namespace SegmentAnchor

def encodedLen : Nat := 40

/-- `IGGYANCH`. -/
def magic : Bytes := [0x49, 0x47, 0x47, 0x59, 0x41, 0x4e, 0x43, 0x48]

def toBytes (xxh3 : Bytes → UInt64) (a : SegmentAnchor) : Bytes :=
  let record := magic ++ packFields [8, 8, 8] [a.plantedStart, a.sealedStart, a.sealedEnd]
  record ++ leBytes 8 (xxh3 record).toNat

def fromBytes (xxh3 : Bytes → UInt64) (bytes : Bytes) : Option SegmentAnchor :=
  if bytes.length ≠ encodedLen then none
  else if bytes.take 8 ≠ magic ∨ leNat (bytes.drop 32) ≠ (xxh3 (bytes.take 32)).toNat then none
  else
    match unpackFields [8, 8, 8] (bytes.drop 8) with
    | [plantedStart, sealedStart, sealedEnd] => some ⟨plantedStart, sealedStart, sealedEnd⟩
    | _ => none

def covers (a : SegmentAnchor) (plantedStart sealedStart sealedEnd : Nat) : Bool :=
  a.plantedStart = plantedStart ∧ a.sealedStart = sealedStart ∧ a.sealedEnd = sealedEnd

end SegmentAnchor

/-! ## The directory -/

/-- The files of a partition, by the start offset in their names. -/
structure PartitionDir where
  logs : SortedMap Nat { log : Bytes // log.length < 2 ^ 64 }
  indexes : SortedMap Nat Bytes
  anchors : SortedMap Nat Bytes
  staging : SortedMap Nat Bytes

theorem empty_log_lt : ([] : Bytes).length < 2 ^ 64 := by decide

namespace PartitionDir

variable (dir : PartitionDir)

def segment (startOffset : Nat) : SegmentFiles :=
  let log := (dir.logs.get? startOffset).getD ⟨[], empty_log_lt⟩
  ⟨log.1, (dir.indexes.get? startOffset).getD [], log.2⟩

def startOffsets : List Nat := dir.logs.entries.map Prod.fst

/-- `sweep_scratch_files_and_collect_offsets`, what it unlinks: staging files, and indexes and
anchors with no log beside them. -/
def sweepScratchFiles : PartitionDir :=
  { dir with
    indexes := dir.indexes.retain fun start => (dir.logs.get? start).isSome
    anchors := dir.anchors.retain fun start => (dir.logs.get? start).isSome
    staging := .empty }

def stageRebuiltIndex (startOffset : Nat) : Option Bytes → PartitionDir
  | none => dir
  | some entries => { dir with staging := dir.staging.insert startOffset entries }

/-- `read_anchor`; a file of another length or with another checksum is no anchor. -/
def readAnchor (xxh3 : Bytes → UInt64) (dir : PartitionDir) (startOffset : Nat) :
    Option SegmentAnchor :=
  (dir.anchors.get? startOffset).bind (SegmentAnchor.fromBytes xxh3)

end PartitionDir

/-! ## The passes -/

/-- `PlannedSegment`. No bounds are a segment that is recovered as empty. -/
structure PlannedSegment where
  startOffset : Nat
  bounds : Option WalkedBounds
  sealed : Bool
  deriving DecidableEq

namespace PlannedSegment

def endOffset (plan : PlannedSegment) : Nat :=
  (plan.bounds.map WalkedBounds.endOffset).getD plan.startOffset

def size (plan : PlannedSegment) : Nat := (plan.bounds.map messagesSize).getD 0

end PlannedSegment

/-- `PartitionRecoveryRefusal`, with those that the chain of segments raises. -/
inductive LoadRefusal
  | segment (refusal : PartitionRecoveryRefusal)
  | emptyNonTailSegment (emptyStart nextStart recoverableBytes : Nat)
  | hole (previousStart previousEnd nextStart recoverableBytes : Nat)
  deriving DecidableEq

section Passes

variable (xxh3 : Bytes → UInt64) (partitionId : Nat)

/-- Pass A over the start offsets left. The work budget of the probes is one for all segments. -/
def planSegments (durableSegments : Bool) :
    List Nat → ProbeBudget → PartitionDir → PartitionDir × Except LoadRefusal (List PlannedSegment)
  | [], _, dir => (dir, .ok [])
  | startOffset :: rest, budget, dir =>
    match recoverSegmentBounds xxh3 partitionId (dir.segment startOffset) startOffset durableSegments
      budget with
    | .error refusal => (dir, .error (.segment refusal))
    | .ok (bounds, budget) =>
      let (dir, planned) := planSegments durableSegments rest budget
        (dir.stageRebuiltIndex startOffset (bounds.bind rebuiltIndex))
      -- only the last segment takes writes
      (dir, planned.map (⟨startOffset, bounds, !rest.isEmpty⟩ :: ·))

/-- The two ways a segment may follow another: at the next offset, or behind a gap that its anchor
names. -/
def follows (anchorOf : Nat → Option SegmentAnchor) (previous next : PlannedSegment) : Bool :=
  (previous.endOffset + 1 < 2 ^ 64 ∧ previous.endOffset + 1 = next.startOffset) ∨
    (previous.endOffset < next.startOffset ∧ (anchorOf next.startOffset).any fun anchor =>
      anchor.covers next.startOffset previous.startOffset previous.endOffset)

/-- `ensure_contiguous_chain`, pass B. -/
def ensureContiguousChain (anchorOf : Nat → Option SegmentAnchor) (recoverableBytes : Nat) :
    List PlannedSegment → Except LoadRefusal Unit
  | previous :: next :: rest => do
    require (previous.size ≠ 0)
      (.emptyNonTailSegment previous.startOffset next.startOffset recoverableBytes)
    require (follows anchorOf previous next)
      (.hole previous.startOffset previous.endOffset next.startOffset recoverableBytes)
    ensureContiguousChain anchorOf recoverableBytes (next :: rest)
  | _ => .ok ()

/-- Pass C over one segment. -/
def PartitionDir.install (dir : PartitionDir) (plan : PlannedSegment) : PartitionDir :=
  let files := (dir.segment plan.startOffset).applyPlan plan.bounds
  { dir with
    logs := dir.logs.insert plan.startOffset ⟨files.log, files.log_lt⟩
    indexes := dir.indexes.insert plan.startOffset files.index
    staging := dir.staging.erase plan.startOffset }

def loadPersistedSegments (durableSegments : Bool) (dir : PartitionDir) :
    PartitionDir × Except LoadRefusal (List PlannedSegment) :=
  let dir := dir.sweepScratchFiles
  match planSegments xxh3 partitionId durableSegments dir.startOffsets {} dir with
  | (dir, .error refusal) => (dir, .error refusal)
  | (dir, .ok planned) =>
    match ensureContiguousChain (dir.readAnchor xxh3) (planned.map PlannedSegment.size).sum
      planned with
    | .error refusal => (dir, .error refusal)
    | .ok () => (planned.foldl PartitionDir.install dir, .ok planned)

end Passes

variable {xxh3 : Bytes → UInt64} {partitionId : Nat} {log : Bytes}
  {startOffset position expected : Nat} {headers : List Header} {header : Header}
  {files : SegmentFiles} {bounds : Option WalkedBounds} {b : WalkedBounds}
  {budget after : ProbeBudget}

/-! ## What a walk leaves behind -/

theorem provenBatchAt_past_end (h : log.length ≤ position) :
    provenBatchAt xxh3 log position = none := by
  cases hproven : provenBatchAt xxh3 log position with
  | none => rfl
  | some header =>
    obtain ⟨hpeek, hle, -⟩ := provenBatchAt_eq_some.mp hproven
    have hsize : 256 ≤ header.batchLength := headerSize_le_of_peekHeader hpeek
    omega

theorem Walker.stops {σ : Type} {walker : Walker σ} {s s' : σ} {fuel : Nat}
    (hmismatch : ∀ s header s', walker.mismatch s header ≠ .ok s')
    (h : walker.walk xxh3 partitionId log startOffset fuel s = .ok s')
    (hfuel : log.length ≤ walker.position s + fuel) :
    provenBatchAt xxh3 log (walker.position s') = none := by
  induction fuel generalizing s with
  | zero =>
    cases h
    exact provenBatchAt_past_end hfuel
  | succ fuel ih =>
    unfold walk at h
    split at h
    · split at h
      · rename_i hnone
        cases h
        exact hnone
      · rename_i header hproven
        have hsize : 256 ≤ header.batchLength :=
          headerSize_le_of_peekHeader (provenBatchAt_eq_some.mp hproven).1
        split at h
        · cases h
        · split at h
          · exact absurd h (hmismatch s header s')
          · exact ih h (by rw [walker.position_accept]; omega)
    · rename_i hend
      cases h
      exact provenBatchAt_past_end (not_lt.mp hend)

theorem plausibleAt_of_proven {chainEnd : Option Nat}
    (hproven : provenBatchAt xxh3 log position = some header) (hcount : 0 < header.messageCount)
    (hadvances : advancesChain chainEnd startOffset header.baseOffset = true) :
    plausibleAt log chainEnd startOffset position = some header := by
  obtain ⟨hpeek, hle, -⟩ := provenBatchAt_eq_some.mp hproven
  obtain ⟨bytes, hslice, hfilter⟩ := Option.bind_eq_some_iff.mp hpeek
  obtain ⟨hdecode, hcap⟩ := Option.filter_eq_some_iff.mp hfilter
  obtain ⟨-, hbytes⟩ := Option.ite_none_right_eq_some.mp hslice
  cases hbytes
  refine Option.filter_eq_some_iff.mpr ⟨hdecode, ?_⟩
  exact decide_eq_true ⟨hadvances, of_decide_eq_true hcap, hle, hcount⟩

/-- Past damage that recovery accepts no batch extends the chain. -/
theorem refuseIfSurvivorPastDamage_ok {damage : Nat} {chainEnd : Option Nat}
    (h : refuseIfSurvivorPastDamage xxh3 log damage chainEnd startOffset budget = .ok after)
    (hposition : damage < position) (hproven : provenBatchAt xxh3 log position = some header)
    (hcount : 0 < header.messageCount) :
    advancesChain chainEnd startOffset header.baseOffset = false := by
  by_contra hadvances
  obtain ⟨hpeek, hle, hverifies⟩ := provenBatchAt_eq_some.mp hproven
  have hsize : 256 ≤ header.batchLength := headerSize_le_of_peekHeader hpeek
  have hcandidate := plausibleAt_of_proven hproven hcount (eq_true_of_ne_false hadvances)
  obtain ⟨refusal, herror⟩ := refuseIfSurvivorPastDamage_error hcandidate hverifies hposition
    (show position < log.length by omega) budget
  rw [herror] at h
  cases h

theorem recoverByWalkingLog_ok
    (h : recoverByWalkingLog xxh3 partitionId log startOffset budget = .ok (bounds, after)) :
    ∃ headers, Chain xxh3 partitionId log 0 startOffset headers ∧
      bounds = (walked startOffset headers).bounds ∧
      ∀ position header, chainSize headers ≤ position →
        provenBatchAt xxh3 log position = some header → 0 < header.messageCount →
        advancesChain ((walked startOffset headers).startTimestamp.map fun _ =>
          (walked startOffset headers).endOffset) startOffset header.baseOffset = false := by
  unfold recoverByWalkingLog at h
  simp only [bind_eq_ok, Except.ok.injEq, Prod.mk.injEq] at h
  obtain ⟨w, hwalk, _, hprobe, hbounds, -⟩ := h
  have hstops := Walker.stops (fun _ _ _ h => by cases h) hwalk (Nat.le_add_left ..)
  obtain ⟨headers, hchain, rfl⟩ := Walker.exists_chain hwalk
  refine ⟨headers, hchain, hbounds.symm, fun position header hposition hproven hcount => ?_⟩
  rcases hposition.eq_or_lt with rfl | hlt
  · have hend : ((walker startOffset).position
        (headers.foldl (walker startOffset).accept (.start startOffset))) =
        chainSize headers := position_walked
    rw [hend, hproven] at hstops
    cases hstops
  · refine refuseIfSurvivorPastDamage_ok hprobe ?_ hproven hcount
    exact position_walked.trans_lt hlt

/-! ## The offsets of a chain -/

def offsetsOf (header : Header) : List Nat := List.range' header.baseOffset header.messageCount

theorem offsetsOf_empty (h : ¬ 0 < header.messageCount) : offsetsOf header = [] := by
  rw [offsetsOf, Nat.eq_zero_of_not_pos h, range'_zero]

theorem flatMap_offsetsOf_empty (h : ∀ x ∈ headers, x.messageCount = 0) :
    headers.flatMap offsetsOf = [] :=
  flatMap_eq_nil_iff.mpr fun x hx => offsetsOf_empty (by rw [h x hx]; exact lt_irrefl 0)

theorem endOffset_foldl_empty (h : ∀ x ∈ headers, x.messageCount = 0) (w : LogWalk) :
    (headers.foldl accept w).endOffset = w.endOffset ∧
      (headers.foldl accept w).startTimestamp = w.startTimestamp := by
  induction headers generalizing w with
  | nil => exact ⟨rfl, rfl⟩
  | cons header rest ih =>
    have hempty : ¬ 0 < header.messageCount := by
      rw [h header mem_cons_self]
      exact lt_irrefl 0
    have hrest := ih (fun x hx => h x (mem_cons_of_mem _ hx)) (w.accept header)
    rw [accept, if_neg hempty] at hrest
    rw [foldl_cons, accept, if_neg hempty]
    exact hrest

theorem endOffset_accept (h : 0 < header.messageCount) (w : LogWalk) :
    (w.accept header).endOffset = saturate (header.baseOffset + (header.messageCount - 1)) := by
  rw [accept, if_pos h]

/-- A chain whose end stays below the largest offset gives every offset from its first on once. -/
theorem Chain.offsets (hchain : Chain xxh3 partitionId log position expected headers) (w : LogWalk)
    (hfull : ∃ x ∈ headers, 0 < x.messageCount)
    (hend : (headers.foldl accept w).endOffset < wordMax) :
    expected ≤ (headers.foldl accept w).endOffset ∧
      headers.flatMap offsetsOf =
        List.range' expected ((headers.foldl accept w).endOffset + 1 - expected) := by
  induction headers generalizing position expected w with
  | nil =>
    obtain ⟨_, hx, -⟩ := hfull
    cases hx
  | cons header rest ih =>
    obtain ⟨-, -, rfl, hrest⟩ := hchain
    rw [foldl_cons] at hend ⊢
    rw [flatMap_cons]
    by_cases hcount : 0 < header.messageCount
    · rw [expectedAfter, if_pos hcount] at hrest
      by_cases hmore : ∃ x ∈ rest, 0 < x.messageCount
      · obtain ⟨hle, hoffsets⟩ := ih hrest (w.accept header) hmore hend
        -- the next batch starts below the largest offset, so this one ended without saturation
        have hnext : saturate (saturate (header.baseOffset + (header.messageCount - 1)) + 1) =
            header.baseOffset + header.messageCount := by
          unfold saturate at hle ⊢
          omega
        rw [hnext] at hle hoffsets
        refine ⟨by omega, ?_⟩
        rw [hoffsets, offsetsOf, range'_append_1]
        congr 1
        omega
      · have hempty : ∀ x ∈ rest, x.messageCount = 0 := fun x hx =>
          Nat.eq_zero_of_not_pos fun hpos => hmore ⟨x, hx, hpos⟩
        rw [(endOffset_foldl_empty hempty _).1, endOffset_accept hcount] at hend ⊢
        rw [flatMap_offsetsOf_empty hempty, append_nil, offsetsOf]
        unfold saturate at hend ⊢
        refine ⟨by omega, ?_⟩
        congr 1
        omega
    · rw [expectedAfter, if_neg hcount] at hrest
      rw [offsetsOf_empty hcount, nil_append]
      refine ih hrest _ ?_ hend
      obtain ⟨x, hx, hpos⟩ := hfull
      rcases mem_cons.mp hx with rfl | hx
      · exact absurd hpos hcount
      · exact ⟨x, hx, hpos⟩

/-! ## The bounds of a segment -/

/-- What bounds of size `m` and end offset `e` say about a log. Batches are whole and verified
(`provenBatchAt`), and no larger than recovery reads. -/
structure Kept (xxh3 : Bytes → UInt64) (partitionId : Nat) (log : Bytes)
    (startOffset m e : Nat) (headers : List Header) : Prop where
  chain : Chain xxh3 partitionId log 0 startOffset headers
  size : chainSize headers = m
  offsets : e < wordMax → startOffset ≤ e ∧
    headers.flatMap offsetsOf = List.range' startOffset (e + 1 - startOffset)
  rest : ∀ position header, m ≤ position → provenBatchAt xxh3 log position = some header →
    0 < header.messageCount → header.baseOffset ≤ e

structure Vacant (xxh3 : Bytes → UInt64) (partitionId : Nat) (log : Bytes)
    (startOffset : Nat) (headers : List Header) : Prop where
  chain : Chain xxh3 partitionId log 0 startOffset headers
  empty : ∀ header ∈ headers, header.messageCount = 0
  rest : ∀ position header, chainSize headers ≤ position →
    provenBatchAt xxh3 log position = some header → 0 < header.messageCount →
    header.baseOffset < startOffset

def BoundsSound (xxh3 : Bytes → UInt64) (partitionId : Nat) (log : Bytes)
    (startOffset : Nat) : Option WalkedBounds → Prop
  | none => ∃ headers, Vacant xxh3 partitionId log startOffset headers
  | some b => ∃ headers, Kept xxh3 partitionId log startOffset b.messagesSize b.endOffset headers

theorem exists_full_of_started (h : (walked startOffset headers).startTimestamp ≠ none) :
    ∃ x ∈ headers, 0 < x.messageCount := by
  by_contra hnone
  refine h (endOffset_foldl_empty (fun x hx => ?_) _).2
  exact Nat.eq_zero_of_not_pos fun hpos => hnone ⟨x, hx, hpos⟩

theorem empty_of_not_started (hchain : Chain xxh3 partitionId log 0 startOffset headers)
    (h : (walked startOffset headers).startTimestamp = none) :
    ∀ x ∈ headers, x.messageCount = 0 := by
  obtain ⟨entries, hrebuilt⟩ := exists_rebuilt hchain
  cases entries with
  | nil => exact (hrebuilt.empty rfl).2
  | cons e es =>
    obtain ⟨hstart, -⟩ := hrebuilt.first e es rfl
    rw [hstart] at h
    cases h

theorem recoverByWalkingLog_sound
    (h : recoverByWalkingLog xxh3 partitionId log startOffset budget = .ok (bounds, after)) :
    BoundsSound xxh3 partitionId log startOffset bounds := by
  obtain ⟨headers, hchain, rfl, hrest⟩ := recoverByWalkingLog_ok h
  unfold bounds
  cases hstart : (walked startOffset headers).startTimestamp with
  | none =>
    rw [hstart] at hrest
    refine ⟨headers, hchain, empty_of_not_started hchain hstart,
      fun position header hposition hproven hcount => ?_⟩
    exact not_le.mp (of_decide_eq_false (hrest position header hposition hproven hcount))
  | some timestamp =>
    rw [hstart] at hrest
    have hfull := exists_full_of_started (hstart ▸ Option.some_ne_none timestamp)
    refine ⟨headers, hchain, position_walked.symm, hchain.offsets (.start startOffset) hfull,
      fun position header hposition hproven hcount => ?_⟩
    rw [position_walked] at hposition
    exact not_lt.mp (of_decide_eq_false (hrest position header hposition hproven hcount))

theorem Accepted.sound {first last : IggyIndex} {a : AnchoredWalk}
    (h : Accepted xxh3 partitionId files startOffset false b first last a) :
    BoundsSound xxh3 partitionId files.log startOffset (some b) := by
  rcases h.bounds with ⟨hdurable, -⟩ | ⟨-, full, startTimestamp, hfull, hstart, hwhole, rfl⟩
  · cases hdurable
  obtain ⟨es, hentries⟩ := head?_eq_some_iff.mp h.head
  obtain ⟨hoffset, hposition⟩ :=
    (validateEntries_consistent h.consistent).2.2.2 rfl first es hentries
  obtain ⟨own, hpeek, -, -, -, hcount, -⟩ :=
    entryMatches_eq_true.mp (h.matched first (mem_of_mem_head? h.head))
  obtain ⟨headers, hchain, rfl⟩ := Walker.exists_chain hfull
  have hstartPosition : (AnchoredWalk.walker startOffset).position (.start first) = 0 := hposition
  have hstartOffset : (AnchoredWalk.walker startOffset).expected (.start first) = startOffset := hoffset
  have hend := (AnchoredWalk.walker startOffset).position_foldl headers (.start first)
  rw [hstartPosition, hstartOffset] at hchain
  rw [hstartPosition, Nat.zero_add] at hend
  cases headers with
  | nil => cases hstart
  | cons header rest =>
    rw [hposition, (provenBatchAt_eq_some.mp hchain.1).1] at hpeek
    obtain rfl := Option.some.inj hpeek
    have hends : EndsAlike (walked startOffset (header :: rest))
        ((header :: rest).foldl AnchoredWalk.accept (.start first)) :=
      endsAlike_foldl (endsAlike_accept _ _ (.inl hcount)) rest
    refine ⟨header :: rest, hchain, hend.symm, fun hlt => ?_, fun position x hle hproven => ?_⟩
    · have hlast : ((header :: rest).foldl AnchoredWalk.accept (.start first)).endOffset =
          (walked startOffset (header :: rest)).endOffset := hends.1
      have hoffsets := hchain.offsets (.start startOffset) ⟨header, mem_cons_self, hcount⟩
        (hlast ▸ hlt)
      exact hlast ▸ hoffsets
    · rw [provenBatchAt_past_end (hwhole ▸ hle)] at hproven
      cases hproven

/-! ## The chain of segments -/

section Load

variable {dir dir' : PartitionDir} {durableSegments : Bool} {planned : List PlannedSegment}
  {refusal : LoadRefusal}

theorem recover_sound
    (h : recoverSegmentBounds xxh3 partitionId files startOffset false budget = .ok (bounds, after)) :
    BoundsSound xxh3 partitionId files.log startOffset bounds := by
  rcases recover_runs h with ⟨_, hwalk⟩ | ⟨b, first, last, a, rfl, haccepted⟩
  · exact recoverByWalkingLog_sound hwalk
  · exact haccepted.sound

structure PartitionDir.SameFiles (dir dir' : PartitionDir) : Prop where
  logs : dir'.logs = dir.logs
  indexes : dir'.indexes = dir.indexes
  anchors : dir'.anchors = dir.anchors

theorem PartitionDir.SameFiles.segment (h : dir.SameFiles dir') (start : Nat) :
    dir'.segment start = dir.segment start := by
  simp only [PartitionDir.segment, h.logs, h.indexes]

theorem sameFiles_stageRebuiltIndex (dir : PartitionDir) (start : Nat)
    (entries : Option Bytes) : dir.SameFiles (dir.stageRebuiltIndex start entries) := by
  cases entries <;> exact ⟨rfl, rfl, rfl⟩

theorem sameFiles_planSegments (xxh3 : Bytes → UInt64) (partitionId : Nat)
    (durableSegments : Bool) (starts : List Nat) (budget : ProbeBudget) (dir : PartitionDir) :
    dir.SameFiles (planSegments xxh3 partitionId durableSegments starts budget dir).1 := by
  induction starts generalizing budget dir with
  | nil => exact ⟨rfl, rfl, rfl⟩
  | cons start rest ih =>
    unfold planSegments
    split
    · exact ⟨rfl, rfl, rfl⟩
    · rename_i bounds left _
      have hstaged := sameFiles_stageRebuiltIndex dir start (bounds.bind rebuiltIndex)
      have hrest := ih left (dir.stageRebuiltIndex start (bounds.bind rebuiltIndex))
      exact ⟨hrest.logs.trans hstaged.logs, hrest.indexes.trans hstaged.indexes,
        hrest.anchors.trans hstaged.anchors⟩

theorem planSegments_ok {starts : List Nat}
    (h : (planSegments xxh3 partitionId durableSegments starts budget dir).2 = .ok planned) :
    planned.map PlannedSegment.startOffset = starts ∧
      ∀ plan ∈ planned, ∃ own left, recoverSegmentBounds xxh3 partitionId
        (dir.segment plan.startOffset) plan.startOffset durableSegments own =
          .ok (plan.bounds, left) := by
  induction starts generalizing budget dir planned with
  | nil =>
    cases h
    exact ⟨rfl, nofun⟩
  | cons start rest ih =>
    unfold planSegments at h
    split at h
    · cases h
    rename_i bounds left hrecover
    obtain ⟨later, hlater, rfl⟩ := map_eq_ok.mp h
    obtain ⟨hstarts, hplans⟩ := ih hlater
    refine ⟨congrArg (start :: ·) hstarts,
      forall_mem_cons.mpr ⟨⟨budget, left, hrecover⟩, fun plan hplan => ?_⟩⟩
    obtain ⟨own, left, hown⟩ := hplans plan hplan
    rw [(sameFiles_stageRebuiltIndex ..).segment] at hown
    exact ⟨own, left, hown⟩

variable {anchorOf : Nat → Option SegmentAnchor}

theorem ensureContiguousChain_ok {recoverableBytes : Nat} :
    ensureContiguousChain anchorOf recoverableBytes planned = .ok () ↔
      planned.IsChain fun previous next =>
        previous.size ≠ 0 ∧ follows anchorOf previous next = true := by
  induction planned with
  | nil => exact iff_of_true rfl .nil
  | cons previous rest ih =>
    cases rest with
    | nil => exact iff_of_true rfl (.singleton previous)
    | cons next rest =>
      rw [ensureContiguousChain]
      simp only [bind_eq_ok, require_eq_ok, exists_const, isChain_cons_cons, ih, and_assoc]

variable {start : Nat}

theorem isSome_of_mem_startOffsets (h : start ∈ dir.startOffsets) :
    (dir.logs.get? start).isSome = true := by
  obtain ⟨⟨_, log⟩, hmem, rfl⟩ := mem_map.mp h
  rw [SortedMap.mem_entries.mp hmem]
  rfl

theorem get?_indexes_sweep (h : (dir.logs.get? start).isSome = true) :
    dir.sweepScratchFiles.indexes.get? start = dir.indexes.get? start := by
  rw [PartitionDir.sweepScratchFiles, SortedMap.get?_retain, if_pos h]

theorem segment_sweep (h : (dir.logs.get? start).isSome = true) :
    dir.sweepScratchFiles.segment start = dir.segment start := by
  simp only [PartitionDir.segment, get?_indexes_sweep h]
  rfl

theorem readAnchor_sweep {anchor : SegmentAnchor}
    (h : dir.sweepScratchFiles.readAnchor xxh3 start = some anchor) :
    dir.readAnchor xxh3 start = some anchor := by
  unfold PartitionDir.readAnchor at h ⊢
  rw [PartitionDir.sweepScratchFiles, SortedMap.get?_retain] at h
  split at h
  · exact h
  · cases h

theorem follows_eq_true {previous next : PlannedSegment}
    (h : follows anchorOf previous next = true) :
    previous.endOffset + 1 = next.startOffset ∨ previous.endOffset < next.startOffset ∧
      anchorOf next.startOffset =
        some ⟨next.startOffset, previous.startOffset, previous.endOffset⟩ := by
  rcases of_decide_eq_true h with hnext | ⟨hlt, hanchor⟩
  · exact .inl hnext.2
  · refine .inr ⟨hlt, ?_⟩
    cases hget : anchorOf next.startOffset with
    | none =>
      rw [hget] at hanchor
      cases hanchor
    | some anchor =>
      rw [hget] at hanchor
      obtain ⟨plantedStart, sealedStart, sealedEnd⟩ := anchor
      obtain ⟨rfl, rfl, rfl⟩ := of_decide_eq_true hanchor
      rfl

/-- A refusal of pass A or B leaves the logs, indexes and anchors as the sweep left them. -/
theorem load_error
    (h : loadPersistedSegments xxh3 partitionId durableSegments dir = (dir', .error refusal)) :
    dir.sweepScratchFiles.SameFiles dir' := by
  have hsame := sameFiles_planSegments xxh3 partitionId durableSegments
    dir.sweepScratchFiles.startOffsets {} dir.sweepScratchFiles
  unfold loadPersistedSegments at h
  dsimp only at h
  split at h <;> rename_i heq <;> rw [heq] at hsame
  · obtain ⟨rfl, -⟩ := Prod.mk.inj h
    exact hsame
  · split at h
    · obtain ⟨rfl, -⟩ := Prod.mk.inj h
      exact hsame
    · cases h

theorem load_ok
    (h : loadPersistedSegments xxh3 partitionId durableSegments dir = (dir', .ok planned)) :
    (planSegments xxh3 partitionId durableSegments dir.startOffsets {}
      dir.sweepScratchFiles).2 = .ok planned ∧
      planned.IsChain fun previous next => previous.size ≠ 0 ∧
        follows (dir.sweepScratchFiles.readAnchor xxh3) previous next = true := by
  have hsame := sameFiles_planSegments xxh3 partitionId durableSegments
    dir.sweepScratchFiles.startOffsets {} dir.sweepScratchFiles
  unfold loadPersistedSegments at h
  dsimp only at h
  split at h
  · cases h
  rename_i swept plans heq
  rw [heq] at hsame
  split at h
  · cases h
  rename_i hchain
  obtain ⟨-, hplanned⟩ := Prod.mk.inj h
  cases hplanned
  have hanchors : swept.readAnchor xxh3 = dir.sweepScratchFiles.readAnchor xxh3 := by
    funext start
    rw [PartitionDir.readAnchor, PartitionDir.readAnchor, hsame.anchors]
  rw [hanchors] at hchain
  exact ⟨congrArg Prod.snd heq, ensureContiguousChain_ok.mp hchain⟩

end Load

/-- **Segment recovery never drops or invents messages.** Without `durable_segments` the bounds of a
segment hold verified batches of the partition at one offset after the other and nothing behind them
goes on; a segment without bounds holds nothing to go on with. The segments that load make a chain,
and a refused load has changed no segment. -/
theorem segment_recovery_sound (xxh3 : Bytes → UInt64) (partitionId : Nat) :
    (∀ (files : SegmentFiles) (startOffset : Nat) (budget after : ProbeBudget)
        (bounds : Option WalkedBounds),
      recoverSegmentBounds xxh3 partitionId files startOffset false budget = .ok (bounds, after) →
        BoundsSound xxh3 partitionId files.log startOffset bounds) ∧
    (∀ (durableSegments : Bool) (dir dir' : PartitionDir) (planned : List PlannedSegment),
      loadPersistedSegments xxh3 partitionId durableSegments dir = (dir', .ok planned) →
        planned.map PlannedSegment.startOffset = dir.startOffsets ∧
        (∀ plan ∈ planned, ∃ budget after, recoverSegmentBounds xxh3 partitionId
          (dir.segment plan.startOffset) plan.startOffset durableSegments budget =
            .ok (plan.bounds, after)) ∧
        planned.IsChain fun previous next => previous.size ≠ 0 ∧
          (previous.endOffset + 1 = next.startOffset ∨ previous.endOffset < next.startOffset ∧
            dir.readAnchor xxh3 next.startOffset =
              some ⟨next.startOffset, previous.startOffset, previous.endOffset⟩)) ∧
    ∀ (durableSegments : Bool) (dir dir' : PartitionDir) (refusal : LoadRefusal),
      loadPersistedSegments xxh3 partitionId durableSegments dir = (dir', .error refusal) →
        dir'.logs = dir.logs ∧ ∀ start, (dir.logs.get? start).isSome = true →
          dir'.indexes.get? start = dir.indexes.get? start := by
  refine ⟨fun files startOffset budget after bounds h => recover_sound h,
    fun durableSegments dir dir' planned h => ?_, fun durableSegments dir dir' refusal h => ?_⟩
  · obtain ⟨hplanned, hchain⟩ := load_ok h
    obtain ⟨hstarts, hplans⟩ := planSegments_ok hplanned
    refine ⟨hstarts, fun plan hplan => ?_, hchain.imp fun previous next hpair => ?_⟩
    · obtain ⟨budget, after, hrecover⟩ := hplans plan hplan
      have hstart : plan.startOffset ∈ dir.startOffsets := hstarts ▸ mem_map_of_mem hplan
      rw [segment_sweep (isSome_of_mem_startOffsets hstart)] at hrecover
      exact ⟨budget, after, hrecover⟩
    · exact ⟨hpair.1, (follows_eq_true hpair.2).imp_right (And.imp_right readAnchor_sweep)⟩
  · have hsame := load_error h
    exact ⟨hsame.logs, fun start hstart => hsame.indexes ▸ get?_indexes_sweep hstart⟩

/-! ## Where recovery looks no further

Offsets saturate at the largest one, so two batches may both start there. And the probe for survivors
starts behind the empty batches that a log begins with: the header below at byte 224 starts in the
reserved bytes of an empty batch. -/

theorem lastOffsets_lt : (oneMessage wordMax 10 ++ oneMessage wordMax 20).length < 2 ^ 64 := by
  decide +kernel

def lastOffsets : SegmentFiles :=
  ⟨oneMessage wordMax 10 ++ oneMessage wordMax 20, [], lastOffsets_lt⟩

def hiddenLog : Bytes :=
  (Header.mk 0 0 0 0 256 44 0).encode ++
    (packFields [8, 8, 4, 204] [304, 52, 1, 0] ++ (MessageHeader.mk 40 0 0 0 0 0).encode)

theorem hiddenLog_lt : hiddenLog.length < 2 ^ 64 := by decide +kernel

theorem last_offset_repeats_and_batch_hides :
    ((recoverSegmentBounds lengthHash 1 lastOffsets wordMax false {}).map fun result =>
        result.1.map fun b => (b.messagesSize, b.endOffset)) = .ok (some (608, wordMax)) ∧
      provenBatchAt lengthHash lastOffsets.log 0 = some ⟨1, wordMax, 10, 10, 304, 52, 1⟩ ∧
      provenBatchAt lengthHash lastOffsets.log 304 = some ⟨1, wordMax, 20, 20, 304, 52, 1⟩ ∧
      (recoverSegmentBounds lengthHash 0 ⟨hiddenLog, [], hiddenLog_lt⟩ 0 false {}).map Prod.fst =
        .ok none ∧
      provenBatchAt lengthHash hiddenLog 224 = some ⟨0, 0, 0, 0, 304, 52, 1⟩ := by
  refine ⟨?_, ?_, ?_, ?_, ?_⟩ <;> decide +kernel

theorem oneMessage_lt : (oneMessage 0 10).length < 2 ^ 64 := by decide +kernel

theorem planted_lt : (oneMessage 5 20).length < 2 ^ 64 := by decide +kernel

/-- A segment at 0 and one that was planted at 5. -/
def plantedDir : PartitionDir where
  logs := (SortedMap.empty.insert 0 ⟨oneMessage 0 10, oneMessage_lt⟩).insert 5
    ⟨oneMessage 5 20, planted_lt⟩
  indexes := .empty
  anchors := SortedMap.empty.insert 5 (SegmentAnchor.toBytes lengthHash ⟨5, 0, 0⟩)
  staging := .empty

def plantedSegments : List PlannedSegment :=
  [⟨0, some ⟨10, 10, 0, 304, 24, some (entryBytes ⟨0, 10, 0⟩)⟩, true⟩,
    ⟨5, some ⟨20, 20, 5, 304, 24, some (entryBytes ⟨5, 20, 0⟩)⟩, false⟩]

theorem planted_segments_load :
    (loadPersistedSegments lengthHash 1 false plantedDir).2 = .ok plantedSegments ∧
      (∃ headers, Kept lengthHash 1 (oneMessage 0 10) 0 304 0 headers) ∧
      plantedDir.readAnchor lengthHash 5 = some ⟨5, 0, 0⟩ := by
  have hload : (loadPersistedSegments lengthHash 1 false plantedDir).2 = .ok plantedSegments := by
    decide +kernel
  obtain ⟨dir', hloaded⟩ : ∃ dir', loadPersistedSegments lengthHash 1 false plantedDir =
      (dir', .ok plantedSegments) := by
    generalize loadPersistedSegments lengthHash 1 false plantedDir = result at hload
    exact ⟨result.1, Prod.ext rfl hload⟩
  obtain ⟨hsound, hchained, -⟩ := segment_recovery_sound lengthHash 1
  obtain ⟨-, hplans, hchain⟩ := hchained false plantedDir dir' plantedSegments hloaded
  refine ⟨hload, ?_, ?_⟩
  · obtain ⟨budget, after, hrecover⟩ := hplans _ mem_cons_self
    exact hsound _ _ _ _ _ hrecover
  · obtain ⟨⟨-, hnext | hgap⟩, -⟩ := isChain_cons_cons.mp hchain
    · cases hnext
    · exact hgap.2

end Iggy.SegmentRecovery
