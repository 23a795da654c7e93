import Mathlib.Algebra.Group.Nat.Defs
import Mathlib.Data.Nat.Basic
import Mathlib.Order.Lattice

/-!
# The offset counters of a partition and their superblock record

Source: iggy_partition.rs:2633-2769, 2838-2889, 3220-3477, 5721-5754, 6420-6441, 6523-6540,
9153-9213; partition_helpers.rs:779-845.

A partition mints message offsets from its append counter (`dirty_offset`) and publishes them
through its committed counter (`offset`). The superblock record keeps two bounds on them: the
frontier, one past what messages reached, and the reservation, one past what may have been minted. A
partition with one replica mints only offsets that the durable reservation covers; a boot seeds the
two counters from the two bounds.

`satAdd` is `saturating_add`, and a `checked_add` is a comparison. What the partition reads of its
clock and of the consensus is an argument where it is read (`backedOff`, `needsPersist`).
-/

namespace Iggy

def u64Max : Nat := 2 ^ 64 - 1

def satAdd (a b : Nat) : Nat := min (a + b) u64Max

/-- The offset bounds of a `VsrState` record. -/
structure OffsetBounds where
  offsetFrontier : Nat
  offsetReserved : Nat
  deriving DecidableEq

inductive SuperblockIntent
  /-- Never rewinds. -/
  | advance (frontier reserved : Nat)
  | install (frontier : Nat)
  | quarantine (frontier : Nat)
  /-- After the shutdown flush, keep only the consumed reservation. -/
  | collapse (frontier reserved : Nat)
  deriving DecidableEq

def SuperblockIntent.finalWrite : SuperblockIntent → Bool
  | .quarantine _ | .collapse _ _ => true
  | .advance _ _ | .install _ => false

inductive PartitionIoVerdict
  | ready | pending | failed
  deriving DecidableEq

structure PartitionOptions where
  replicaCount : Nat
  hasSuperblock : Bool
  persisted : Bool
  offsetReservationLease : Nat
  deriving DecidableEq

/-- A superblock write under way: by the I/O lane, or by a caller before the partition is mounted. -/
structure SuperblockWrite where
  intent : SuperblockIntent
  state : OffsetBounds
  lane : Bool
  deriving DecidableEq

structure OffsetPartition where
  options : PartitionOptions
  appendLive : Bool
  committedSeeded : Bool
  dirtyOffset : Nat
  offset : Nat
  /-- The end offset of the last segment that holds bytes. -/
  sizedEnd : Option Nat
  recoveredDurableOffset : Option Nat
  durableOffsetFrontier : Nat
  durableOffsetReserved : Nat
  superblockIntent : Option SuperblockIntent
  superblockRunning : Option SuperblockWrite
  superblockCompleted : Option (SuperblockIntent × Bool)
  deriving DecidableEq

namespace OffsetPartition

/-! ## Frontiers -/

variable (p : OffsetPartition)

/-- One past the highest committed offset, 0 while nothing is committed. -/
def offsetFrontier : Nat :=
  if p.committedSeeded then satAdd p.offset 1 else 0

def mintFrontier : Nat :=
  if p.appendLive then satAdd p.dirtyOffset 1 else 0

/-- One past the highest offset the partition holds and may not lose. -/
def heldOffsetFrontier : Nat :=
  max (p.sizedEnd.elim 0 (satAdd · 1)) p.offsetFrontier

def advancedFrontier (claim : Nat) : Nat :=
  max (max claim p.heldOffsetFrontier) p.durableOffsetFrontier

variable (endOffset : Nat)

def offsetRangeIsReserved : Bool :=
  p.options.replicaCount > 1 || !p.options.hasSuperblock || p.durableOffsetReserved > endOffset

variable (intent : SuperblockIntent)

/-- The bounds a write of the intent records. -/
def superblockState : OffsetBounds :=
  let (frontier, reserved) := match intent with
    | .advance frontier reserved =>
      (p.advancedFrontier frontier, max reserved p.durableOffsetReserved)
    | .install frontier => (p.advancedFrontier frontier, frontier)
    | .quarantine frontier => (frontier, p.durableOffsetReserved)
    | .collapse frontier reserved => (frontier, reserved)
  ⟨frontier, max reserved frontier⟩

/-! ## Superblock writes -/

def queueSuperblockIntent (backedOff : Bool) : PartitionIoVerdict × OffsetPartition :=
  if backedOff && !intent.finalWrite then (.failed, p)
  else if p.superblockRunning.any fun w => w.lane && w.intent = intent then (.pending, p)
  else match p.superblockIntent, intent with
  | some (.advance oldFrontier oldReserved), .advance frontier reserved =>
    let merged := SuperblockIntent.advance (max oldFrontier frontier) (max oldReserved reserved)
    (.pending, { p with superblockIntent := some merged })
  | some pending, intent =>
    if pending ≠ intent && (pending.finalWrite || !intent.finalWrite) then (.pending, p)
    else (.pending, { p with superblockIntent := some intent })
  | none, intent => (.pending, { p with superblockIntent := some intent })

variable (needsPersist backedOff : Bool)

def requestSuperblockIntent : PartitionIoVerdict × OffsetPartition :=
  if !p.options.hasSuperblock then (.ready, p)
  else match intent, p.superblockCompleted with
  | .advance frontier reserved, _ =>
    if !needsPersist && p.durableOffsetFrontier ≥ frontier && p.durableOffsetReserved ≥ reserved then
      (.ready, p)
    else p.queueSuperblockIntent intent backedOff
  | intent, some (completed, succeeded) =>
    if completed = intent then
      (if succeeded then .ready else .failed, { p with superblockCompleted := none })
    else p.queueSuperblockIntent intent backedOff
  | intent, none => p.queueSuperblockIntent intent backedOff

/-- The I/O lane takes the waiting intent; the bounds are read here, not when it was asked for. -/
def startSuperblock (backedOff : Bool) : Option OffsetPartition :=
  match p.superblockRunning, p.superblockIntent with
  | none, some intent =>
    if p.options.hasSuperblock && (!backedOff || intent.finalWrite) then
      some { p with superblockIntent := none
                    superblockRunning := some ⟨intent, p.superblockState intent, true⟩ }
    else none
  | _, _ => none

/-- `accept_superblock`, without its count of failures. -/
def acceptSuperblock (state : OffsetBounds) (succeeded : Bool) : OffsetPartition :=
  if succeeded then
    { p with durableOffsetFrontier := state.offsetFrontier
             durableOffsetReserved := state.offsetReserved }
  else p

/-- A write came back. An advance of the lane that failed waits for its next turn. -/
def finishSuperblock (succeeded : Bool) : Option OffsetPartition :=
  p.superblockRunning.map fun w =>
    let p := ({ p with superblockRunning := none }).acceptSuperblock w.state succeeded
    if w.lane then
      let p := { p with superblockCompleted := some (w.intent, succeeded) }
      match w.intent with
      | .advance _ _ =>
        if !succeeded && p.superblockIntent.isNone then { p with superblockIntent := some w.intent }
        else p
      | _ => p
    else p

def collapseSuperblockIntent : Option SuperblockIntent :=
  if p.options.hasSuperblock && p.durableOffsetReserved > p.mintFrontier then
    some (.collapse (p.advancedFrontier 0) p.mintFrontier)
  else none

/-- `needs_offset_reservation_extension`, of a partition that is not shutting down. -/
def needsOffsetReservationExtension : Bool :=
  !(p.options.replicaCount > 1 || !p.options.hasSuperblock) && p.appendLive &&
    p.durableOffsetReserved - p.mintFrontier < max (p.options.offsetReservationLease / 2) 1

/-- `extend_offset_reservation`: a lease past the ceiling on disk. -/
def extendOffsetReservation : PartitionIoVerdict × OffsetPartition :=
  let ceiling := max p.durableOffsetReserved p.mintFrontier
  p.requestSuperblockIntent (.advance 0 (satAdd ceiling p.options.offsetReservationLease))
    needsPersist backedOff

/-- The last offset a send of `count` messages takes if it is sequenced now. -/
def requestMintCeiling (count : Nat) : Nat :=
  satAdd p.mintFrontier (count - 1)

/-- The intent that reserves up to and with `endOffset`; the frontier is exclusive, so the highest
offset cannot be covered. -/
def reservationIntent : Option SuperblockIntent :=
  if endOffset + 1 ≤ u64Max then
    some (.advance 0 (satAdd (endOffset + 1) p.options.offsetReservationLease))
  else none

/-- `reserve_offsets_through_retryable` of a mounted partition. -/
def reserveOffsetsThroughRetryable : PartitionIoVerdict × OffsetPartition :=
  if p.offsetRangeIsReserved endOffset then (.ready, p)
  else match p.reservationIntent endOffset with
  | none => (.failed, p)
  | some intent => p.requestSuperblockIntent intent needsPersist backedOff

def admitReservedSend (count : Nat) (needsPersist backedOff : Bool) :
    PartitionIoVerdict × OffsetPartition :=
  if p.options.replicaCount > 1 then (.ready, p)
  else p.reserveOffsetsThroughRetryable (p.requestMintCeiling count) needsPersist backedOff

/-- `reserve_offsets_through` before the partition is mounted: it writes itself. -/
def reserveOffsetsThrough : Option OffsetPartition :=
  match p.superblockRunning, p.reservationIntent endOffset with
  | none, some intent =>
    if p.offsetRangeIsReserved endOffset then none
    else some { p with superblockRunning := some ⟨intent, p.superblockState intent, false⟩ }
  | _, _ => none

/-! ## Minting and committing -/

/-- The offset the next message takes; `none` when the counter is exhausted. -/
def nextOffset : Option Nat :=
  if p.appendLive then if p.dirtyOffset + 1 ≤ u64Max then some (p.dirtyOffset + 1) else none
  else some 0

/-- `stamp_and_append_messages` of a batch of `count` messages: its base offset and the partition
after it, or `none` where it is refused. -/
def stampAndAppendMessages (count : Nat) : Option (Nat × OffsetPartition) := do
  let base ← p.nextOffset
  if count = 0 then none
  else
    let lastDirtyOffset := base + (count - 1)
    if u64Max < lastDirtyOffset then none
    else if !p.offsetRangeIsReserved lastDirtyOffset then none
    else some (base, { p with appendLive := true, dirtyOffset := lastDirtyOffset })

/-- `publish_committed_batch_stats` for the batch that ends at `endOffset`. -/
def publishCommitted : OffsetPartition :=
  let p := { p with appendLive := true, committedSeeded := true }
  if p.recoveredDurableOffset.all (· < endOffset) then { p with offset := endOffset } else p

/-! ## Boot -/

/-- `restore_offset_frontier`: each counter takes its own maximum. -/
def restoreOffsetFrontier : Option OffsetBounds → OffsetPartition
  | none => p
  | some state =>
    let frontier := state.offsetFrontier
    let reserved := if p.options.replicaCount = 1 ∧ p.options.persisted = false then
      state.offsetReserved else 0
    let appendPoint := max frontier reserved
    if appendPoint = 0 then p
    else
      let committedRestored := frontier ≠ 0 && (!p.appendLive || p.offset < frontier - 1)
      let appendRestored := !p.appendLive || p.dirtyOffset < appendPoint - 1
      if !committedRestored && !appendRestored then p
      else
        { p with
          offset := if committedRestored then frontier - 1 else p.offset
          dirtyOffset := if appendRestored then appendPoint - 1 else p.dirtyOffset
          appendLive := true
          committedSeeded := p.committedSeeded || frontier > 0 }

/-- A partition as it is built, with the record it recovered (`set_superblock`). -/
def new (options : PartitionOptions) (recovered : Option OffsetBounds) : OffsetPartition :=
  { options
    appendLive := false, committedSeeded := false, dirtyOffset := 0, offset := 0
    sizedEnd := none, recoveredDurableOffset := none
    durableOffsetFrontier := recovered.elim 0 (·.offsetFrontier)
    durableOffsetReserved := recovered.elim 0 (·.offsetReserved)
    superblockIntent := none, superblockRunning := none, superblockCompleted := none }

variable (sizedEnd chainStart checkpointEnd : Option Nat)

/-- The offset a boot finds on disk: that of the sized segments, else of the name of an empty chain
as far as the durable frontier backs it, and that of the segment checkpoint. -/
def recoveredOffset (recovered : Option OffsetBounds) : Option Nat :=
  let durableFrontier := recovered.elim 0 (·.offsetFrontier)
  let emptyFrontier := (chainStart.map (min · durableFrontier)).filter fun start =>
    sizedEnd.isNone && start > 0
  (sizedEnd.or (emptyFrontier.map (· - 1))).merge max checkpointEnd

/-- The counters as the offset found on disk sets them. -/
def seedOffsets (currentOffset sizedEnd checkpointEnd : Option Nat) : OffsetPartition :=
  { p with offset := currentOffset.getD 0
           dirtyOffset := currentOffset.getD 0
           sizedEnd
           recoveredDurableOffset := sizedEnd.merge max checkpointEnd
           appendLive := currentOffset.isSome
           committedSeeded := currentOffset.isSome }

/-- `restore_partition_offsets`: the counters from what is on disk, then from the record. -/
def restorePartitionOffsets (recovered : Option OffsetBounds) : OffsetPartition :=
  let currentOffset := recoveredOffset sizedEnd chainStart checkpointEnd recovered
  (p.seedOffsets currentOffset sizedEnd checkpointEnd).restoreOffsetFrontier recovered

end OffsetPartition

end Iggy
