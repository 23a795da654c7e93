import Iggy.Lib.BinarySearch
import Iggy.Partitions.BatchSelection
import Iggy.Partitions.ResidentJournal
import Mathlib.Data.Prod.Lex

/-!
# Polling a partition

Source: partitions/src/journal.rs:519-565, 1085-1120, 1405-1500; poll_plan.rs:381-535, 688-1183,
1303-1395; iggy_partition.rs:5500-5676, 7061-7102.

`build_poll_plan` takes a snapshot of the partition, and `PollPlan::execute_with_limit` reads it:
from the resident journal alone where that reaches back far enough, otherwise from the segment files
and then on into the journal.

A file read or an open that ran out of its retries is a fault (`DiskFaults`). A read buffer's
capacity is that of its allocator (`capacity`). The descriptor cache, the diagnostics and the
reclaiming of consumer offsets do not bear on what is read.
-/

namespace Iggy.Poll

open Lib Batch

/-- `u64::MAX` and `usize::MAX`. -/
def wordMax : Nat := 2 ^ 64 - 1

def saturate (n : Nat) : Nat := min n wordMax

/-! ## The resident journal -/

/-- `decode_prepare_slice_trusted`: a prepare is one batch, its checksums are not looked at. -/
def decodePrepareSliceTrusted (p : ResidentPrepare) : Option BatchRef :=
  if p.header.size < Iggy.headerSize ∨ p.length < p.header.size then none
  else
    let body := p.body.take (p.header.size - Iggy.headerSize)
    if body.length < Batch.headerSize then none
    else match Header.decode (body.take Batch.headerSize) with
      | .error _ => none
      | .ok header =>
        if body.length ≠ header.batchLength then none
        else some ⟨header, body.drop Batch.headerSize⟩

def residentBatch (p : ResidentPrepare) : Option BatchRef :=
  if p.header.operation = .sendMessages then decodePrepareSliceTrusted p else none

structure PollJournal where
  entries : SortedMap Nat ResidentPrepare

namespace PollJournal

variable (j : PollJournal)

/-- The entries that the indexes know, each with its batch: those with a message. -/
def indexed : List (Nat × BatchRef) :=
  j.entries.entries.filterMap fun (op, p) =>
    ((residentBatch p).filter fun batch => batch.header.messageCount ≠ 0).map fun batch =>
      (op, batch)

def offsetToOp : SortedMap Nat Nat :=
  j.indexed.foldl (fun m (op, batch) => m.upsert batch.header.baseOffset fun _ => op) .empty

def timestampToOp : SortedMap (Nat ×ₗ Nat) Nat :=
  j.indexed.foldl
    (fun m (op, batch) => m.upsert (toLex (batch.header.baseTimestamp, op)) fun _ => op) .empty

def oldestResidentOffset : Option Nat := j.offsetToOp.entries.head?.map Prod.fst

def candidateStartOp : MessageLookup → Option Nat
  | .offset start _ _ =>
    ((j.offsetToOp.entries.filter fun x => x.1 ≤ start).getLast?.or
      (j.offsetToOp.entries.find? fun x => start ≤ x.1)).map Prod.snd
  | .timestamp since _ _ =>
    let next := j.timestampToOp.entries.find? fun x => since ≤ (ofLex x.1).1
    match next.filter fun x => (ofLex x.1).1 = since with
    | some exact => some exact.2
    | none =>
      ((j.timestampToOp.entries.filter fun x => (ofLex x.1).1 < since).getLast?.or next).map
        Prod.snd

end PollJournal

section

variable (xxh3 : Bytes → UInt64)

def tryPushResidentEntry (query : MessageLookup) (acc : Selection) (p : ResidentPrepare) :
    Selection :=
  match residentBatch p with
  | none => acc
  | some batch => pushBatch xxh3 query acc p.body batch

/-- The loop over resident entries, in the order given. -/
def pushResidentEntries (query : MessageLookup) : List ResidentPrepare → Selection → Selection
  | [], acc => acc
  | p :: rest, acc =>
    if query.count ≤ acc.matched then acc
    else pushResidentEntries query rest (tryPushResidentEntry xxh3 query acc p)

def PollJournal.getSync (j : PollJournal) (query : MessageLookup) : Option Selection := do
  let startOp ← j.candidateStartOp query
  let entries := (j.entries.entries.filter fun x => startOp ≤ x.1).map Prod.snd
  let result := pushResidentEntries xxh3 query entries {}
  if result.fragments.isEmpty then none else some result

/-- `resident_message_entries`: the indexed entries in offset order. -/
def PollJournal.residentMessageEntries (j : PollJournal) : List ResidentPrepare :=
  j.offsetToOp.entries.filterMap fun x => j.entries.get? x.2

def selectResident (entries : List ResidentPrepare) (query : MessageLookup) : Option Selection :=
  if query.count = 0 then none
  else
    let result := pushResidentEntries xxh3 query entries {}
    if result.fragments.isEmpty then none else some result

end

/-! ## Index lookups -/

structure IggyIndex where
  offset : Nat
  timestamp : Nat
  position : Nat
  deriving DecidableEq

def iggyIndexSize : Nat := 24

def sealedIndexResidentMaxBytes : Nat := 512 * 1024

variable (entries : List IggyIndex) (query : MessageLookup)

/-- `IggyIndexCache::offset_lower_bound` and `timestamp_lower_bound`. -/
def IggyIndexCache.lowerBound (key : IggyIndex → Nat) (target : Nat) : Option IggyIndex :=
  match Lib.binarySearchByKey entries key target with
  | .ok i => entries[i]?
  | .error 0 => none
  | .error (i + 1) => entries[i]?

def indexLowerBound : Option IggyIndex :=
  match query with
  | .offset start _ _ => IggyIndexCache.lowerBound entries IggyIndex.offset start
  | .timestamp since _ _ => IggyIndexCache.lowerBound entries IggyIndex.timestamp since

def resolveIndexPosition : Option (Nat × Nat) :=
  (indexLowerBound entries query).map fun entry => (entry.position, entry.offset)

/-- `IggyIndexReader::lower_bound_by`: the binary search over the entries of the file. -/
def lowerBoundBy (entries : List IggyIndex) (key : IggyIndex → Nat) (target : Nat) :
    (fuel low high : Nat) → Option IggyIndex → Option IggyIndex
  | 0, _, _, result => result
  | fuel + 1, low, high, result =>
    if low < high then
      let middle := low + (high - low) / 2
      match entries[middle]? with
      | none => result
      | some entry =>
        if key entry ≤ target then lowerBoundBy entries key target fuel (middle + 1) high (some entry)
        else lowerBoundBy entries key target fuel low middle result
    else result

/-- The lookup of a query in an index that is not loaded. -/
def lowerBoundOnFile : Option IggyIndex :=
  match query with
  | .offset start _ _ =>
    lowerBoundBy entries IggyIndex.offset start (entries.length + 1) 0 entries.length none
  | .timestamp since _ _ =>
    lowerBoundBy entries IggyIndex.timestamp since (entries.length + 1) 0 entries.length none

/-! ## The disk tier -/

structure SealedOffsetCursor where
  offset : Nat
  validUntil : Nat
  position : Nat
  deriving DecidableEq

/-- `DiskSegment`, its read state and its files. -/
structure DiskSegment where
  startOffset : Nat
  persisted : Nat
  sealed : Bool
  log : Bytes
  index : Option (List IggyIndex)
  offsetCursor : Option SealedOffsetCursor
  indexFile : List IggyIndex

/-- Which opens and reads fail after their retries: of a segment's log, of a chunk of it at a
position and of a length, and of its index file. -/
structure DiskFaults where
  openFails : (startOffset : Nat) → Bool
  readFails : (startOffset position length : Nat) → Bool
  indexFails : (startOffset : Nat) → Bool

inductive PartitionDirResolution
  | resolved | noFiles | unresolvable
  deriving DecidableEq

structure DiskReadPlan where
  partitionDir : PartitionDirResolution
  segments : List DiskSegment
  startPosition : Nat
  startIndexOffset : Option Nat
  validateChecksum : Bool
  bytesPerMessage : Option Nat
  widestBatchBytes : Nat

/-- The two byte limits of `execute_with_limit`. -/
structure PollLimits where
  maxBytes : Nat
  maxSelectedBytes : Nat
  deriving DecidableEq

inductive DiskFault
  | retryable | unreadable
  deriving DecidableEq

def diskPollChunkMax : Nat := 2 ^ 20

def diskPollChunkMin : Nat := 64 * 2 ^ 10

def readAllocationFactor : Nat := 4

def sparseChunkPinDivisor : Nat := 4

def prepareBytesMax : Nat := 64 * 1024 * 1024

def fragmentSize : Nat := 40

/-- The size of the `ControlBlock` of an allocation. -/
def controlBlockSize : Nat := 64

/-- `DiskWalk`, without the limits. -/
structure DiskWalk where
  position : Nat
  skipped : Nat
  selection : Selection := {}
  batchReadFloor : Nat := 0
  selectedBytes : Nat := 0
  retainedBytes : Nat := 0
  limited : Bool := false

inductive SegmentWalk
  | done
  | faulted (fault : DiskFault)
  | limited
  deriving DecidableEq

structure ChunkWalk where
  consumed : Nat
  needed : Nat
  corrupt : Bool
  deriving DecidableEq

def DiskWalk.remainingToRead (walk : DiskWalk) (count : Nat) : Nat :=
  min (count - walk.selection.matched + walk.skipped) (2 ^ 32 - 1)

def DiskWalk.usableBytes (walk : DiskWalk) (limits : PollLimits) (bytesPerMessage : Option Nat) :
    Nat :=
  let reply := limits.maxSelectedBytes - walk.selectedBytes
  if walk.skipped = 0 then reply
  else match bytesPerMessage with
    | none => wordMax
    | some bytesPerMessage => saturate (reply + saturate (bytesPerMessage * walk.skipped))

namespace DiskReadPlan

variable (plan : DiskReadPlan)

def chunkLen (remaining usable : Nat) : Nat :=
  let estimate := match plan.bytesPerMessage with
    | none => diskPollChunkMax
    | some bytesPerMessage =>
      saturate (saturate (bytesPerMessage * remaining) + Batch.headerSize)
  max diskPollChunkMin (min (max (min estimate usable) plan.widestBatchBytes) diskPollChunkMax)

def nextChunkLen (limits : PollLimits) (walk : DiskWalk) (count : Nat) : Nat :=
  max (plan.chunkLen (walk.remainingToRead count) (walk.usableBytes limits plan.bytesPerMessage))
    walk.batchReadFloor

def integrity : Integrity :=
  if plan.validateChecksum then .verify else .layoutOnly

end DiskReadPlan

/-- `read_chunk_with_retry`: all the bytes asked for, or a fault. -/
def readChunk (faults : DiskFaults) (segment : DiskSegment) (position length : Nat) :
    Option Bytes :=
  if faults.readFails segment.startOffset position length ∨ segment.log.length < position + length then
    none
  else some ((segment.log.drop position).take length)

section

variable (xxh3 : Bytes → UInt64) (capacity : Nat → Nat)

/-- `walk_disk_chunk`; no chunk holds more batches than bytes. -/
def walkDiskChunk (integrity : Integrity) (query : MessageLookup) (chunk : Bytes) :
    (fuel cursor : Nat) → Selection → Selection × ChunkWalk
  | 0, cursor, acc => (acc, ⟨min cursor chunk.length, 0, false⟩)
  | fuel + 1, cursor, acc =>
    if acc.matched < query.count ∧ cursor + Batch.headerSize ≤ chunk.length then
      match decodeBatchSliceWith xxh3 (chunk.drop cursor) integrity with
      | .ok batch =>
        walkDiskChunk integrity query chunk fuel (cursor + batch.header.batchLength)
          (pushBatch xxh3 query acc (chunk.drop cursor) batch)
      | .error (.unexpectedEof _ need _) =>
        if need ≤ prepareBytesMax then (acc, ⟨min cursor chunk.length, need, false⟩)
        else (acc, ⟨cursor, 0, true⟩)
      | .error _ => (acc, ⟨cursor, 0, true⟩)
    else (acc, ⟨min cursor chunk.length, 0, false⟩)

/-- `unpin_sparse_source` and `charge_allocations` on the fragments of one chunk: those that slice
it keep the chunk, or one copy of what they cover where that is a small part of it. No allocation is
shared with another chunk. -/
def chargeChunk (chunkLength : Nat) (added : List Fragment) : Nat :=
  let borrowed := ((added.filter Fragment.borrows).map fun f => f.bytes.length).sum
  let owned := ((added.filter fun f => !f.borrows).map fun f =>
    capacity f.bytes.length + controlBlockSize).sum
  if borrowed = 0 then owned
  else if borrowed < chunkLength / sparseChunkPinDivisor then
    owned + (capacity borrowed + controlBlockSize)
  else owned + (capacity chunkLength + controlBlockSize)

/-- The accounting after a chunk. -/
def DiskWalk.account (walk : DiskWalk) (chunkLength : Nat) (selection : Selection) : DiskWalk :=
  let added := selection.fragments.drop walk.selection.fragments.length
  { walk with
    selection
    retainedBytes := saturate (saturate (walk.retainedBytes + chargeChunk capacity chunkLength added)
      + saturate (added.length * (fragmentSize * 2)))
    selectedBytes := saturate (walk.selectedBytes + (added.map fun f => f.bytes.length).sum) }

variable (plan : DiskReadPlan) (faults : DiskFaults) (limits : PollLimits) (query : MessageLookup)

/-- Whether a walk that has a match must not read `length` more bytes. -/
def DiskWalk.full (walk : DiskWalk) (length : Nat) : Bool :=
  0 < walk.selection.matched &&
    (limits.maxSelectedBytes ≤ walk.selectedBytes ||
      limits.maxBytes < saturate (saturate (length * readAllocationFactor) + walk.retainedBytes))

/-- `walk_segment`. Two turns take at least one batch, so twice the bytes of the segment are turns
enough. -/
def walkSegment (segment : DiskSegment) :
    (fuel chunkLen : Nat) → DiskWalk → DiskWalk × SegmentWalk
  | 0, _, walk => (walk, .faulted .unreadable)
  | fuel + 1, chunkLen, walk =>
    if walk.selection.matched < query.count ∧ walk.position < segment.persisted then
      let left := segment.persisted - walk.position
      let length := min left chunkLen
      if walk.full limits length then ({ walk with limited := true }, .limited)
      else match readChunk faults segment walk.position length with
        | none => (walk, .faulted .retryable)
        | some chunk =>
          let (selection, chunkWalk) :=
            walkDiskChunk xxh3 plan.integrity query chunk chunk.length 0 walk.selection
          let walk := walk.account capacity length selection
          if 0 < walk.selection.matched ∧ limits.maxBytes < walk.retainedBytes then
            ({ walk with limited := true }, .limited)
          else if chunkWalk.corrupt then (walk, .faulted .unreadable)
          else if chunkWalk.consumed = 0 then
            if left ≤ length then (walk, .faulted .unreadable)
            else if left < chunkWalk.needed then (walk, .faulted .unreadable)
            else if length < chunkWalk.needed then
              walkSegment segment fuel chunkWalk.needed
                { walk with
                  batchReadFloor := max walk.batchReadFloor (min chunkWalk.needed diskPollChunkMax) }
            else walkSegment segment fuel (saturate (chunkLen * 4)) walk
          else
            let walk := if 0 < walk.selection.matched then { walk with skipped := 0 } else walk
            walkSegment segment fuel (plan.nextChunkLen limits walk query.count)
              { walk with position := walk.position + chunkWalk.consumed }
    else (walk, .done)

/-- The loop over the segments; each but the first is walked from its first byte. -/
def walkSegments : List DiskSegment → DiskWalk → DiskWalk × Option DiskFault
  | [], walk => (walk, none)
  | segment :: rest, walk =>
    if query.count ≤ walk.selection.matched then (walk, none)
    else if segment.persisted = 0 ∨ segment.persisted ≤ walk.position then
      walkSegments rest { walk with position := 0 }
    else if faults.openFails segment.startOffset then (walk, some .retryable)
    else match walkSegment xxh3 capacity plan faults limits query segment
        (2 * segment.persisted + 2) (plan.nextChunkLen limits walk query.count) walk with
      | (walk, .done) => walkSegments rest { walk with position := 0 }
      | (walk, .limited) => (walk, none)
      | (walk, .faulted fault) => (walk, some fault)

end

/-- The memoised interval, where the query is in it. -/
def cursorHit (segment : DiskSegment) : MessageLookup → Option SealedOffsetCursor
  | .offset start _ _ =>
    segment.offsetCursor.filter fun cursor => cursor.offset ≤ start ∧ start < cursor.validUntil
  | .timestamp _ _ _ => none

/-- `resolve_sealed_start`: an index that cannot be read leaves the walk at the segment's start. -/
def resolveSealedStart (faults : DiskFaults) (segment : DiskSegment) (query : MessageLookup)
    (maxBytes : Nat) : Option (Nat × Nat) :=
  if ¬ segment.sealed then none
  else match segment.index with
    | some index => resolveIndexPosition index query
    | none => match cursorHit segment query with
      | some cursor => some (cursor.position, cursor.offset)
      | none =>
        if faults.indexFails segment.startOffset then none
        else
          let indexBytes := saturate (segment.indexFile.length * iggyIndexSize)
          if indexBytes ≤ sealedIndexResidentMaxBytes ∧ saturate (indexBytes * 2) ≤ maxBytes then
            resolveIndexPosition segment.indexFile query
          else (lowerBoundOnFile segment.indexFile query).map fun entry =>
            (entry.position, entry.offset)

inductive DiskReadOutcome
  | matched (selection : Selection) (faulted limited : Bool)
  | empty
  | faulted (fault : DiskFault)

/-- The messages between the index entry and the offset asked for. -/
def skippedRun (entryOffset : Option Nat) : MessageLookup → Nat
  | .offset start _ _ => match entryOffset with
    | some entry => min (start - entry) (2 ^ 32 - 1)
    | none => 0
  | .timestamp _ _ _ => 0

def DiskReadPlan.readDiskWithLimit (xxh3 : Bytes → UInt64) (capacity : Nat → Nat)
    (plan : DiskReadPlan) (faults : DiskFaults) (limits : PollLimits) (query : MessageLookup) :
    DiskReadOutcome :=
  if query.count = 0 ∨ plan.segments.isEmpty then .empty
  else match plan.partitionDir with
    | .noFiles =>
      if plan.segments.any fun segment => 0 < segment.persisted then .faulted .unreadable else .empty
    | .unresolvable => .faulted .retryable
    | .resolved =>
      let resolved := plan.segments.head?.bind fun first =>
        resolveSealedStart faults first query limits.maxBytes
      let position := (resolved.map Prod.fst).getD plan.startPosition
      let entryOffset := (resolved.map Prod.snd).or plan.startIndexOffset
      let (walk, fault) := walkSegments xxh3 capacity plan faults limits query plan.segments
        { position, skipped := skippedRun entryOffset query }
      if 0 < walk.selection.matched then .matched walk.selection fault.isSome walk.limited
      else match fault with
        | some fault => .faulted fault
        | none => .empty

/-! ## The plan and its execution -/

structure ResidentTailSnapshot where
  oldestResident : Option Nat
  entries : List ResidentPrepare

def ResidentTailSnapshot.straddleContinuation (tail : ResidentTailSnapshot)
    (lastOffset remaining ceiling : Nat) : Option MessageLookup :=
  let next := (lastOffset + 1) % 2 ^ 64
  if 0 < remaining ∧ tail.oldestResident.any fun oldest => oldest ≤ next then
    some (.offset next remaining ceiling)
  else none

inductive PollTier
  | empty
  | resident (selection : Selection)
  | disk (plan : DiskReadPlan) (query : MessageLookup) (residentTail : ResidentTailSnapshot)

/-- The errors of a read that failed before it matched anything. -/
inductive ReadError
  | transientNotAccepted | cannotReadMessage
  deriving DecidableEq

def DiskFault.error : DiskFault → ReadError
  | .retryable => .transientNotAccepted
  | .unreadable => .cannotReadMessage

/-- `PollReadResult`, without the admission context. -/
structure PollReadResult where
  selection : Selection
  truncated : Bool
  readError : Option ReadError
  deriving DecidableEq

section

variable (xxh3 : Bytes → UInt64) (capacity : Nat → Nat)

/-- A disk match continued into the resident tail. -/
def continueMatch (residentTail : ResidentTailSnapshot) (query : MessageLookup)
    (selection : Selection) (faulted limited : Bool) : PollReadResult :=
  let remaining := if limited then 0 else query.count - selection.matched
  let continuation := selection.lastMatchingOffset.bind fun lastOffset =>
    (residentTail.straddleContinuation lastOffset remaining query.ceiling).bind fun query =>
      selectResident xxh3 residentTail.entries query
  match continuation with
  | some journal =>
    { selection :=
        { fragments := selection.fragments ++ journal.fragments
          lastMatchingOffset := journal.lastMatchingOffset.or selection.lastMatchingOffset
          matched := selection.matched + journal.matched }
      truncated := false
      readError := none }
  | none => { selection, truncated := limited || faulted, readError := none }

def PollTier.executeWithLimit (tier : PollTier) (faults : DiskFaults) (limits : PollLimits) :
    PollReadResult :=
  match tier with
  | .empty => { selection := {}, truncated := false, readError := none }
  | .resident selection => { selection, truncated := false, readError := none }
  | .disk plan query residentTail =>
    match plan.readDiskWithLimit xxh3 capacity faults limits query with
    | .empty =>
      { selection := (selectResident xxh3 residentTail.entries query).getD {}
        truncated := false
        readError := none }
    | .faulted fault => { selection := {}, truncated := false, readError := some fault.error }
    | .matched selection faulted limited =>
      continueMatch xxh3 residentTail query selection faulted limited

end

/-- A segment of the log: its metadata, the resident index, if any, and what a read of it sees. -/
structure Segment where
  startOffset : Nat
  size : Nat
  maxTimestamp : Nat
  sealed : Bool
  indexes : Option (List IggyIndex)
  log : Bytes
  readIndex : Option (List IggyIndex)
  offsetCursor : Option SealedOffsetCursor
  indexFile : List IggyIndex

inductive PollingKind
  | offset | timestamp | first | last | next
  deriving DecidableEq

structure PollingArgs where
  kind : PollingKind
  value : Nat
  count : Nat
  deriving DecidableEq

/-- What a poll reads of a partition; `consumerOffset` is `get_consumer_offset` of the consumer. -/
structure PolledPartition where
  commitOffset : Nat
  committedSeeded : Bool
  consumerOffset : Option Nat
  segments : List Segment
  journal : PollJournal
  partitionDir : PartitionDirResolution
  meanEncodedMessageSize : Option Nat
  widestCommittedBatch : Nat

namespace PolledPartition

variable (p : PolledPartition)

/-- The offset at which a poll of the kind starts. -/
def startOffset (args : PollingArgs) : Nat :=
  match args.kind with
  | .first => 0
  | .last => p.commitOffset - (args.count - 1)
  | .next => match p.consumerOffset with
    | some offset => (offset + 1) % 2 ^ 64
    | none => 0
  | _ => args.value

/-- The lookup of a poll, if there is anything to look for. -/
def lookup (args : PollingArgs) : Option MessageLookup :=
  if args.kind = .timestamp then some (.timestamp args.value args.count p.commitOffset)
  else if p.commitOffset < p.startOffset args then none
  else some (.offset (p.startOffset args) args.count p.commitOffset)

/-- `disk_poll_start`: the first segment to walk, the byte in it, and the offset of the entry that
gave the byte. -/
def diskPollStart (query : MessageLookup) : Nat × Nat × Option Nat :=
  match query with
  | .offset start _ _ =>
    let segmentIndex := (p.segments.length - 1) -
      (p.segments.reverse.findIdx fun segment => segment.startOffset ≤ start)
    let entry := p.segments[segmentIndex]?.bind fun segment =>
      segment.indexes.bind fun cache => indexLowerBound cache query
    (segmentIndex, (entry.map IggyIndex.position).getD 0,
      (entry.map IggyIndex.offset).or (p.segments[segmentIndex]?.map Segment.startOffset))
  | .timestamp since _ _ =>
    let segmentIndex := min (p.segments.findIdx fun segment => since ≤ segment.maxTimestamp)
      (p.segments.length - 1)
    let entry := p.segments[segmentIndex]?.bind fun segment =>
      segment.indexes.bind fun cache => indexLowerBound cache query
    (segmentIndex, (entry.map IggyIndex.position).getD 0, none)

def diskSegment (segment : Segment) : DiskSegment where
  startOffset := segment.startOffset
  persisted := segment.size
  sealed := segment.sealed
  log := segment.log
  index := segment.readIndex
  offsetCursor := segment.offsetCursor
  indexFile := segment.indexFile

/-- Whether the journal alone answers the query. -/
def serveJournalFirst : MessageLookup → Bool
  | .offset start _ _ => p.journal.oldestResidentOffset.any fun oldest => oldest ≤ start
  | .timestamp _ _ _ => !p.segments.any fun segment => 0 < segment.size

def diskReadPlan (query : MessageLookup) (validateChecksum : Bool) : DiskReadPlan :=
  let (startSegment, startPosition, startIndexOffset) := p.diskPollStart query
  { partitionDir := p.partitionDir
    segments := (p.segments.drop startSegment).map diskSegment
    startPosition
    startIndexOffset
    validateChecksum
    bytesPerMessage := p.meanEncodedMessageSize
    widestBatchBytes := p.widestCommittedBatch }

def residentTailSnapshot : ResidentTailSnapshot where
  oldestResident := p.journal.oldestResidentOffset
  entries := p.journal.residentMessageEntries

def buildPollPlan (xxh3 : Bytes → UInt64) (p : PolledPartition) (args : PollingArgs)
    (validateChecksum : Bool) : PollTier :=
  if ¬ p.committedSeeded ∨ args.count = 0 then .empty
  else match p.lookup args with
    | none => .empty
    | some query =>
      if p.serveJournalFirst query then
        match p.journal.getSync xxh3 query with
        | some selection => .resident selection
        | none => .empty
      else .disk (p.diskReadPlan query validateChecksum) query p.residentTailSnapshot

end PolledPartition

end Iggy.Poll
