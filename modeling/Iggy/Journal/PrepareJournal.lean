import Mathlib.Data.List.Sort
import Iggy.Lib.Except
import Iggy.Lib.Framing
import Iggy.Lib.Writes
import Iggy.Wire.Header

/-!
# The metadata WAL: `PrepareJournal`

Source: server_common/src/consensus_message.rs:559-598; journal/src/prepare_journal.rs:263-388,
583-808, 1031-1328.

The file is a sequence of whole prepares; the index is a slot array over `op % slot_count` with the
header and the file offset of the latest prepare of each slot. An append may evict an entry at or
below the snapshot watermark, so the file keeps entries the index has forgotten. `drain` and
`remove_range` rewrite the file with the entries of the index, sorted by op. `scan` rebuilds the
index from the file and decides between damage to refuse and a torn tail to cut.

Operations run to completion one after the other, so the poison marker and the in-flight guard do
not appear. Op arithmetic wraps at `2^64`, as in a release build.
-/

namespace Iggy

open Lib PrepareHeader

/-! ## A prepare as one frame -/

/-- `Message<PrepareHeader>`: its header parses and validates, and it holds at least the `size`
bytes that claims. -/
structure Message where
  bytes : Bytes
  header : PrepareHeader
  parsed : tryFromBytes (bytes.take headerSize) = some header
  validated : header.validate = .ok ()
  spans : headerSize ≤ header.size
  covers : header.size ≤ bytes.length

namespace Message

def tryFrom (bytes : Bytes) : Option Message :=
  match h : tryFromBytes (bytes.take headerSize) with
  | none => none
  | some header =>
    if hok : header.validate = .ok () ∧ headerSize ≤ header.size ∧ header.size ≤ bytes.length then
      some ⟨bytes, header, h, hok.1, hok.2.1, hok.2.2⟩
    else none

def body (m : Message) : Bytes := (m.bytes.take m.header.size).drop headerSize

@[simp] theorem tryFrom_bytes (m : Message) : tryFrom m.bytes = some m := by
  unfold tryFrom
  split
  case h_1 h => exact absurd (h.symm.trans m.parsed) (by simp)
  case h_2 header h =>
    obtain rfl : header = m.header := Option.some.inj (h.symm.trans m.parsed)
    rw [dif_pos ⟨m.validated, m.spans, m.covers⟩]

end Message

/-! ## Reading the file -/

/-- `MAX_ENTRY_SIZE`: 64 MiB. -/
def maxEntrySize : Nat := 64 * 1024 * 1024

def checksumBodyUnsealed : Nat := 0

inductive JournalError
  | zeroSlotCount
  | slack (length size : Nat)
  | slotCollision (op existing snapshotOp : Nat)
  | removalFromZero
  | snapshotRegressed (current op : Nat)
  | unexpectedEof (offset length : Nat)
  | malformedEntry (op : Nat)
  | interiorHeader (pos op : Nat) (operation : Operation) (following : Nat)
  | interiorChain (pos op previousOp parent previousChecksum following : Nat)
  | interiorBody (pos op : Nat) (operation : Operation) (following : Nat)
  | midFile (pos : Nat) (reason : String) (entryPos trailing : Nat)
  | tailTooWide (pos : Nat) (reason : String) (trailing : Nat)
  | rebuildCollision (op existing slot slotCount snapshotOp : Nat)
  deriving DecidableEq

/-- Exactly `length` bytes or an error. -/
def readAt (file : Bytes) (offset length : Nat) : Except JournalError Bytes :=
  if offset + length ≤ file.length then .ok ((file.drop offset).take length)
  else .error (.unexpectedEof offset length)

def validEntrySizeAndCommand (header : PrepareHeader) : Bool :=
  header.command == .prepare && headerSize ≤ header.size && header.size ≤ maxEntrySize

variable (xxh3 : Bytes → Nat)

def validHeaderChecksum (header : PrepareHeader) : Bool :=
  header.checksum == checksumUnsealed || header.identityChecksum xxh3 == header.checksum

def validBodyChecksum (header : PrepareHeader) (body : Bytes) : Bool :=
  header.checksumBody == checksumBodyUnsealed || xxh3 body == header.checksumBody

variable (file : Bytes)

def validEntryHeader (pos : Nat) : Option PrepareHeader :=
  (tryFromBytes ((file.drop pos).take headerSize)).filter validEntrySizeAndCommand

/-- `find_complete_entry`: the first byte after `start` where a structurally complete entry starts.
The source reads in strides that overlap by a header, so every position with room for one is a
candidate. -/
def findCompleteEntry (start : Nat) : Option Nat :=
  (List.range' (start + 1) (file.length + 1 - (start + 1 + headerSize))).find? fun pos =>
    (validEntryHeader file pos).any fun header => pos + header.size ≤ file.length

/-- Cut a torn tail, or refuse where a complete entry follows or the region is wider than one
append. -/
def truncateOrFail (pos : Nat) (reason : String) : Except JournalError Bytes :=
  match findCompleteEntry file pos with
  | some entryPos => .error (.midFile pos reason entryPos (file.length - pos))
  | none =>
    if maxEntrySize < file.length - pos then .error (.tailTooWide pos reason (file.length - pos))
    else .ok (file.take pos)

def slotForOp (op slotCount : Nat) : Nat := op % slotCount

def nextOp (op : Nat) : Nat := (op + 1) % 2 ^ 64

def noteLastOp (lastOp : Option Nat) (op : Nat) : Option Nat :=
  match lastOp with
  | some current => if current < op then some op else some current
  | none => some op

/-! ## The opening scan -/

structure ScanState where
  headers : Nat → Option PrepareHeader := fun _ => none
  offsets : Nat → Option Nat := fun _ => none
  lastOp : Option Nat := none
  unsealedEntries : Nat := 0
  /-- Op and checksum of the previous entry in the file. -/
  chainPrevious : Option (Nat × Nat) := none
  pos : Nat := 0

def ScanState.accept (slotCount : Nat) (s : ScanState) (header : PrepareHeader) : ScanState where
  headers := Function.update s.headers (slotForOp header.op slotCount) (some header)
  offsets := Function.update s.offsets (slotForOp header.op slotCount) (some s.pos)
  lastOp := noteLastOp s.lastOp header.op
  unsealedEntries :=
    s.unsealedEntries + if header.checksumBody = checksumBodyUnsealed then 1 else 0
  chainPrevious := some (header.op, header.checksum)
  pos := s.pos + header.size

/-- The parent link is checked between consecutive ops whose earlier end is sealed. -/
def breaksChain (previous : Option (Nat × Nat)) (header : PrepareHeader) : Option (Nat × Nat) :=
  previous.filter fun p =>
    nextOp p.1 = header.op ∧ p.2 ≠ checksumUnsealed ∧ header.parent ≠ p.2

/-- What one entry comes to: taken, or a place to cut. -/
inductive ScanStep
  | accepted (s : ScanState)
  | cut (reason : String)

/-- Damage in the last entry is a torn tail, damage before it is refused. -/
def damaged (endPos : Nat) (error : Nat → JournalError) (reason : String) :
    Except JournalError ScanStep :=
  if endPos < file.length then .error (error (file.length - endPos)) else .ok (.cut reason)

def scanEntry (slotCount snapshotOp : Nat) (file : Bytes) (s : ScanState) :
    Except JournalError ScanStep :=
  match tryFromBytes ((file.drop s.pos).take headerSize) with
  | none => .ok (.cut "corrupt header (invalid bit pattern)")
  | some header =>
    if ¬ validEntrySizeAndCommand header then .ok (.cut "corrupt or non-prepare entry")
    else if file.length < s.pos + header.size then .ok (.cut "truncated entry at tail")
    else if ¬ validHeaderChecksum xxh3 header then
      damaged file (s.pos + header.size) (.interiorHeader s.pos header.op header.operation)
        "prepare header checksum mismatch at tail"
    else match breaksChain s.chainPrevious header with
      | some (previousOp, previousChecksum) =>
        damaged file (s.pos + header.size)
          (.interiorChain s.pos header.op previousOp header.parent previousChecksum)
          "prepare parent chain break at tail"
      | none =>
        let body := (file.drop (s.pos + headerSize)).take (header.size - headerSize)
        if ¬ validBodyChecksum xxh3 header body then
          damaged file (s.pos + header.size) (.interiorBody s.pos header.op header.operation)
            "prepare body checksum mismatch at tail"
        else
          let slot := slotForOp header.op slotCount
          match (s.headers slot).filter fun e => e.op ≠ header.op ∧ snapshotOp < e.op with
          | some existing =>
            .error (.rebuildCollision header.op existing.op slot slotCount snapshotOp)
          | none => .ok (.accepted (s.accept slotCount header))

/-- The loop and the check for leftover bytes. Every entry is longer than a header, so `fuel` never
runs out from the file's length on. -/
def scanLoop (xxh3 : Bytes → Nat) (slotCount snapshotOp : Nat) (file : Bytes) :
    Nat → ScanState → Except JournalError (ScanState × Bytes)
  | 0, s => .ok (s, file)
  | fuel + 1, s =>
    if s.pos + headerSize ≤ file.length then
      match scanEntry xxh3 slotCount snapshotOp file s with
      | .error e => .error e
      | .ok (.cut reason) => (truncateOrFail file s.pos reason).map fun file => (s, file)
      | .ok (.accepted s) => scanLoop xxh3 slotCount snapshotOp file fuel s
    else if s.pos < file.length then
      (truncateOrFail file s.pos "leftover bytes shorter than a header").map fun file => (s, file)
    else .ok (s, file)

/-! ## The journal -/

structure PrepareJournal where
  storage : Bytes
  headers : Nat → Option PrepareHeader
  offsets : Nat → Option Nat
  lastOp : Option Nat
  snapshotOp : Nat
  slotCount : Nat
  unsealedEntries : Nat

/-- `RangeInclusive<u64>`. -/
structure OpRange where
  first : Nat
  last : Nat
  deriving DecidableEq

def OpRange.contains (ops : OpRange) (op : Nat) : Bool := ops.first ≤ op && op ≤ ops.last

namespace PrepareJournal

def openWithSlots (snapshotOp slotCount : Nat) : Except JournalError PrepareJournal :=
  if slotCount = 0 then .error .zeroSlotCount
  else (scanLoop xxh3 slotCount snapshotOp file (file.length + 1) {}).map fun (s, file) =>
    { storage := file, headers := s.headers, offsets := s.offsets, lastOp := s.lastOp,
      snapshotOp, slotCount, unsealedEntries := s.unsealedEntries }

def empty (snapshotOp slotCount : Nat) : PrepareJournal :=
  { storage := [], headers := fun _ => none, offsets := fun _ => none, lastOp := none, snapshotOp,
    slotCount, unsealedEntries := 0 }

variable (j : PrepareJournal)

def header (op : Nat) : Option PrepareHeader :=
  (j.headers (slotForOp op j.slotCount)).filter fun h => h.op = op

def entry (header : PrepareHeader) : Option Message := do
  let stored ← (j.headers (slotForOp header.op j.slotCount)).filter fun h => h.op = header.op
  let offset ← j.offsets (slotForOp header.op j.slotCount)
  let bytes ← (readAt j.storage offset stored.size).toOption
  Message.tryFrom bytes

def setSnapshotOp (op : Nat) : Except JournalError PrepareJournal :=
  if op < j.snapshotOp then .error (.snapshotRegressed j.snapshotOp op)
  else .ok { j with snapshotOp := op }

/-- The write, the sync and the index update of `append`. -/
def write (entry : Message) : PrepareJournal :=
  let slot := slotForOp entry.header.op j.slotCount
  { j with
    storage := j.storage ++ entry.bytes
    headers := Function.update j.headers slot (some entry.header)
    offsets := Function.update j.offsets slot (some j.storage.length)
    lastOp := noteLastOp j.lastOp entry.header.op }

def append (entry : Message) : Except JournalError PrepareJournal :=
  if entry.bytes.length ≠ entry.header.size then
    .error (.slack entry.bytes.length entry.header.size)
  else match (j.headers (slotForOp entry.header.op j.slotCount)).filter
      fun e => j.snapshotOp < e.op with
    | some existing => .error (.slotCollision entry.header.op existing.op j.snapshotOp)
    | none => .ok (j.write entry)

/-- The indexed entries with their offsets, slot by slot. -/
def occupied : List (PrepareHeader × Nat) :=
  (List.range j.slotCount).filterMap fun slot =>
    match j.headers slot, j.offsets slot with
    | some header, some offset => some (header, offset)
    | _, _ => none

/-- `sort_unstable_by_key(|(h, _)| h.op)`; the indexed ops are distinct. -/
def sortByOp (entries : List (PrepareHeader × Nat)) : List (PrepareHeader × Nat) :=
  entries.insertionSort fun a b => a.1.op ≤ b.1.op

variable (ops : OpRange)

def entriesIn : List (PrepareHeader × Nat) :=
  sortByOp (j.occupied.filter fun e => ops.contains e.1.op)

/-- What a rewrite keeps. -/
def live : List (PrepareHeader × Nat) :=
  sortByOp (j.occupied.filter fun e => !ops.contains e.1.op)

def rewriteWal (live : List (PrepareHeader × Nat)) : Except JournalError Bytes :=
  (live.mapM fun e => readAt j.storage e.2 e.1.size).map List.flatten

/-- Written over the old ones. -/
def compactedOffsets (slotCount : Nat) :
    List (PrepareHeader × Nat) → Nat → (Nat → Option Nat) → Nat → Option Nat
  | [], _, offsets => offsets
  | (header, _) :: live, pos, offsets =>
    compactedOffsets slotCount live (pos + header.size)
      (Function.update offsets (slotForOp header.op slotCount) (some pos))

/-- The kept entries have new offsets and the slots of the removed ones are cleared. -/
def compacted (file : Bytes) : PrepareJournal :=
  let removed := fun slot => (j.headers slot).any fun h => ops.contains h.op
  let offsets := compactedOffsets j.slotCount (j.live ops) 0 j.offsets
  { j with
    storage := file
    headers := fun slot => if removed slot then none else j.headers slot
    offsets := fun slot => if removed slot then none else offsets slot }

/-- The number of removed entries and the journal without them. -/
def removeRange : Except JournalError (Nat × PrepareJournal) := do
  require (ops.first ≠ 0) .removalFromZero
  let removed := (j.occupied.filter fun e => ops.contains e.1.op).length
  if removed = 0 then return (0, j)
  let file ← j.rewriteWal (j.live ops)
  return (removed,
    { j.compacted ops file with lastOp := (j.live ops).getLast?.map fun e => e.1.op })

def readEntry (e : PrepareHeader × Nat) : Except JournalError Message := do
  let bytes ← readAt j.storage e.2 e.1.size
  match Message.tryFrom bytes with
  | some m => .ok m
  | none => .error (.malformedEntry e.1.op)

/-- The drained prepares and the journal without them, its watermark at or above the end of the
range. -/
def drain : Except JournalError (List Message × PrepareJournal) := do
  let drained ← (j.entriesIn ops).mapM j.readEntry
  let file ← j.rewriteWal (j.live ops)
  return (drained, { j.compacted ops file with snapshotOp := max j.snapshotOp ops.last })

/-! ## Runs -/

inductive Op
  | append (entry : Message)
  | removeRange (ops : OpRange)
  | drain (ops : OpRange)
  | setSnapshotOp (op : Nat)

def step : Op → Except JournalError PrepareJournal
  | .append entry => j.append entry
  | .removeRange ops => (j.removeRange ops).map Prod.snd
  | .drain ops => (j.drain ops).map Prod.snd
  | .setSnapshotOp op => j.setSnapshotOp op

def run (ops : List Op) : Except JournalError PrepareJournal :=
  ops.foldlM step j

def bodiless (h : PrepareHeader) (hf : h.Fits) (hv : h.validate = .ok ())
    (hsize : h.size = headerSize) : Message where
  bytes := h.bytesOf
  header := h
  parsed := by
    rw [List.take_of_length_le (Nat.le_of_eq (length_bytesOf hf)), tryFromBytes_bytesOf hf]
  validated := hv
  spans := hsize.ge
  covers := by rw [length_bytesOf hf, hsize]

end PrepareJournal

end Iggy
