import Iggy.Partitions.ResidentJournal

/-!
# The view fence of a partition

Source: view_fence.rs:58-75; iggy_partition.rs:6201-6241, 9224-9255, 9318-9538, 9609-9711,
13037-13073.

A replica that adopted a newer view may hold entries of a log the view discarded.
`fence_view_window` holds the ops above its commit point back until `prove_view_window` has walked
their `parent` chain down from the view's header one above them, the anchor.

What the partition reads of its surroundings is a field that an event sets (`historyBusy`), or an
argument where it is read: whether a cut of the WAL succeeded (`truncates`), whether the WAL and the
superblock are ready for an acknowledgement, and whether it left.
-/

namespace Iggy

open Lib

/-- An unproven window `(floor, through]` and, once known, the view's header above it. -/
structure ViewFence where
  view : Nat
  through : Nat
  anchor : Option PrepareHeader
  /-- The op the last proof stopped at for lack of an entry. -/
  hole : Option Nat
  deriving DecidableEq

inductive ViewWindowVerdict
  | proven
  | hole (op : Nat)
  | break (op : Nat)
  deriving DecidableEq

/-- The walk over the `n` ops above the floor, from the top down. -/
def walkViewWindow (floor : Nat) (headerAt : Nat → Option PrepareHeader) :
    Nat → Nat → ViewWindowVerdict
  | 0, _ => .proven
  | n + 1, expected =>
    match headerAt (floor + (n + 1)) with
    | none => .hole (floor + (n + 1))
    | some header =>
      if header.checksum = checksumUnsealed ∨ header.checksum ≠ expected then
        .break (floor + (n + 1))
      else walkViewWindow floor headerAt n header.parent

def viewWindowVerdict (floor through anchorParent : Nat) (headerAt : Nat → Option PrepareHeader) :
    ViewWindowVerdict :=
  walkViewWindow floor headerAt (through - floor) anchorParent

/-- Work queued for a history: a cut of a range of ops, or any other transition. -/
inductive PendingTransition
  | truncate (first last : Nat)
  | other
  deriving DecidableEq

structure FencedPartition where
  view : Nat
  commitMin : Nat
  /-- The commit point recovered from the WAL, which the walk may not have reached. -/
  recoveredCommit : Nat
  currentSequence : Nat
  lastPrepareChecksum : Nat
  journal : ResidentJournal
  viewFence : Option ViewFence
  hasIoDispatcher : Bool
  historyBusy : Bool
  transition : Option PendingTransition
  unprovenDropFrom : Option Nat
  pendingPersistedAcks : SortedMap Nat PrepareHeader
  materializationMissing : Bool
  /-- The op a fatal failure stopped at. -/
  fatal : Option Nat
  /-- The acknowledgements sent, newest first. -/
  acks : List PrepareHeader

namespace FencedPartition

def opMax : Nat := 2 ^ 64 - 1

variable (p : FencedPartition)

def fenceFloor : Nat := max p.commitMin p.recoveredCommit

def viewFenced : Bool := p.viewFence.any (p.commitMin < ·.through)

def fenceViewWindow (through : Nat) (anchor : Option PrepareHeader) : FencedPartition :=
  if through ≤ p.fenceFloor then { p with viewFence := none }
  else
    let previous := p.viewFence.filter fun fence => fence.view = p.view && fence.through = through
    let anchor := (anchor.filter (·.anchorsChain)).or (previous.bind (·.anchor))
    { p with viewFence := some ⟨p.view, through, anchor, previous.bind (·.hole)⟩ }

def offerViewAnchor (header : PrepareHeader) : FencedPartition :=
  match p.viewFence with
  | none => p
  | some fence =>
    if fence.anchor.isNone && fence.view = header.view && header.op = fence.through + 1 &&
        header.anchorsChain then
      { p with viewFence := some { fence with anchor := some header, hole := none } }
    else p

def viewProofDeferred : Bool := p.historyBusy || p.transition.isSome

/-- `remove_resident_range`, without the offset counters. A cut of entries that the WAL recovered as
committed lowers that commit point. -/
def removeResidentRange (first last : Nat) : Option FencedPartition :=
  (p.journal.removeRange first last).map fun journal =>
    { p with
      journal
      recoveredCommit := if first ≤ p.recoveredCommit then first - 1 else p.recoveredCommit }

def noteUnprovenDropped : FencedPartition :=
  { p with viewFence := p.viewFence.map fun fence => { fence with hole := none } }

/-- `drop_unproven_from`: the cut runs here, or is handed to the I/O lane of a mounted partition,
or is left for the next proof while other work holds the lane. -/
def dropUnprovenFrom (op : Nat) (truncates : Bool) : FencedPartition :=
  if !p.journal.holdsOp op then { p with fatal := some op }
  else if p.hasIoDispatcher then
    if p.viewProofDeferred then p
    else { p with unprovenDropFrom := some op, transition := some (.truncate op opMax) }
  else if !truncates then { p with fatal := some op }
  else match p.removeResidentRange op opMax with
    | none => { p with fatal := some op }
    | some p => p.noteUnprovenDropped

/-- The lowest op of the window whose last copy, the one a flush writes, is not the proven one. -/
def divergentCopy (floor through : Nat) : Option Nat :=
  (List.range' (floor + 1) (through - floor)).find? fun op =>
    match p.journal.repairHeader op, p.journal.repairEntry op with
    | some header, some flushed => flushed.header.checksum ≠ header.checksum
    | _, _ => false

def queueAcksWithheldByFence (through : Nat) : FencedPartition :=
  let queue := fun (pending : SortedMap Nat PrepareHeader) (op : Nat) =>
    match p.journal.repairHeader op with
    | none => pending
    | some header => if header.view = p.view then pending.upsert op fun _ => header else pending
  { p with pendingPersistedAcks :=
      (List.range' (through + 1) (p.currentSequence - through)).foldl queue p.pendingPersistedAcks }

/-- The window is the view's: lift the fence, restore the head's checksum, queue the acks. -/
def liftFence (through : Nat) : FencedPartition :=
  let head := (p.journal.repairHeader p.currentSequence).elim p.lastPrepareChecksum (·.checksum)
  ({ p with viewFence := none, lastPrepareChecksum := head }).queueAcksWithheldByFence through

def judgeViewWindow (fence : ViewFence) (anchor : PrepareHeader) (truncates : Bool) :
    ViewWindowVerdict × FencedPartition :=
  match viewWindowVerdict p.fenceFloor fence.through anchor.parent p.journal.repairHeader with
  | .proven =>
    match p.divergentCopy p.fenceFloor fence.through with
    | some op => (.break op, p.dropUnprovenFrom op truncates)
    | none => (.proven, p.liftFence fence.through)
  | .hole op => (.hole op, { p with viewFence := some { fence with hole := some op } })
  | .break op => (.break op, p.dropUnprovenFrom op truncates)

/-- The memoized hole, while it is in the window and still missing. -/
def openHole (fence : ViewFence) : Option Nat :=
  fence.hole.filter fun hole => p.fenceFloor < hole && !p.journal.holdsOp hole

def proveViewWindow (truncates : Bool) : Option ViewWindowVerdict × FencedPartition :=
  match p.viewFence with
  | none => (none, p)
  | some fence =>
    if fence.through ≤ p.fenceFloor then (some .proven, { p with viewFence := none })
    else match fence.anchor with
    | none => (none, p)
    | some anchor =>
      match p.openHole fence with
      | some hole => (some (.hole hole), p)
      | none =>
        let (verdict, p) := p.judgeViewWindow fence anchor truncates
        (some verdict, p)

/-- The I/O lane runs a queued cut. A marker below the cut stays for the proof that finds it. -/
def runTruncation : Option FencedPartition :=
  match p.transition with
  | some (.truncate first last) =>
    let unprovenDrop := p.unprovenDropFrom.any (first ≤ ·)
    let unprovenDropFrom := if unprovenDrop then none else p.unprovenDropFrom
    let taken : FencedPartition := { p with transition := none, unprovenDropFrom }
    (taken.removeResidentRange first last).map fun cut =>
      if unprovenDrop then cut.noteUnprovenDropped else cut
  | _ => none

/-- `send_prepare_ok`; `sent` is what the consensus answered. -/
def sendPrepareOk (header : PrepareHeader) (durable persisted sent : Bool) : FencedPartition :=
  if p.fatal.isSome || p.materializationMissing then p
  else if p.viewFenced then p
  else if !durable || !persisted then
    { p with pendingPersistedAcks := p.pendingPersistedAcks.upsert header.op fun _ => header }
  else if sent then { p with acks := header :: p.acks }
  else p

end FencedPartition

end Iggy
