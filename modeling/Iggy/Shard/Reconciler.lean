import Mathlib.Algebra.BigOperators.Group.Finset.Basic
import Mathlib.Algebra.Order.BigOperators.Group.Finset
import Mathlib.Data.Fintype.Basic

/-!
# The partition reconciler

Source: server/src/partition_reconciler.rs; `apply_reconcile_ops` of shard/src/lib.rs.

The reconciler diffs the committed partitions against what a shard serves: missing partitions are
built, ghosts are torn down, and the results wait in the reconcile queue for the pump. A visit of
one namespace reads and writes its own entries only, so a `Slot` holds the entries of one namespace,
its part of the queue included, and a pass visits every slot. What a pass meets outside this state
(disk, keys, the loader, the clock, commits landing while it runs) is an input of the pass. The pump
runs between passes and, as that input says, before visits of a pass.

A torn-down tombstone keeps its `Delete` record as long as no pass tears down a namespace that is
neither committed nor mounted without deleting it (`Reaches.record`). A skipped pass hides no work
as long as no pass finds an `InsertRouted` queued for an epoch that is no longer committed
(`Reaches.settled`). Each condition is on the state a pass starts from and on what it meets, and
each is needed: a run without it stands beside the result.
-/

namespace Iggy.Reconciler

open List

/-- `FailureRecord`, in nanoseconds of `Instant`. -/
structure FailureRecord where
  attempts : Nat
  nextRetryAt : Nat
deriving DecidableEq

/-- Doubles per attempt from `BACKOFF_BASE`, clamped at `BACKOFF_MAX`. -/
def nextBackoff (attempts : Nat) : Nat :=
  min (1000000000 * 2 ^ min (attempts - 1) 6) 60000000000

/-- `record_failure` on the entry of one namespace and cause. -/
def recordFailure (entry : Option FailureRecord) (now : Nat) : Option FailureRecord :=
  have attempts := min (entry.elim 0 (·.attempts) + 1) (2 ^ 32 - 1)
  some ⟨attempts, now + nextBackoff attempts⟩

def isBackedOff (entry : Option FailureRecord) (now : Nat) : Bool :=
  entry.any fun record => now < record.nextRetryAt

/-- `ReconcileOp`, for the namespace whose slot queues it. -/
inductive ReconcileOp where
  | insertOwned (epoch : Nat)
  | insertRouted (owner epoch : Nat)
  | confirmRemove
  | removeRouted
deriving DecidableEq

/-- The row of the shards table. -/
structure PartitionLocation where
  shardId : Nat
  epoch : Nat
deriving DecidableEq

/-- What a shard holds for one namespace. -/
structure Slot where
  shardId : Nat
  /-- The shard the namespace hashes to. -/
  owner : Nat
  /-- `IggyPartitions::contains`. -/
  mounted : Bool
  /-- The tombstone, with the revision that failed recovery. -/
  tombstone : Option (Option Nat)
  row : Option PartitionLocation
  /-- `failure_state`, by cause. -/
  add : Option FailureRecord
  delete : Option FailureRecord
  /-- `unbuilt_owned`. -/
  unbuilt : Bool
  queue : List ReconcileOp
  /-- The part of this namespace in `consumer_group_offsets_reconcile_epoch`: every mount bumps
  it. -/
  mounts : Nat
  /-- `PassCounters::total` of the current pass over this namespace. -/
  work : Nat
  /-- History: a teardown set the tombstone and queued no `ConfirmRemove` since. -/
  fenced : Bool
deriving DecidableEq

/-- What building a partition ends with. `fenced` and `deferred` are the two `Ok(None)` of
`load_partition_or_fence`. -/
inductive Built where
  | partition
  | fenced
  | deferred
  | failed
deriving DecidableEq

/-- What a pass meets at one namespace. -/
structure Outcome where
  now : Nat
  /-- The topic options are readable and the stream's key opens. -/
  resolved : Bool
  /-- A directory without a revision marker is on disk. -/
  unmarked : Bool
  built : Built
  drained : Bool
  deleted : Bool

namespace Slot

variable (s : Slot)

def isMine : Bool := s.owner = s.shardId

def isTombstoned : Bool := s.tombstone.isSome

def failedRevision : Option Nat := s.tombstone.join

def shardsTableHasEpoch (epoch : Nat) : Bool := s.row.any (·.epoch = epoch)

def hasStagedInsertOwned : Bool :=
  s.queue.any fun op => match op with
    | .insertOwned _ => true
    | _ => false

/-- The synchronous part of a teardown: tombstone and row removal. -/
def fence : Slot :=
  { s with
    tombstone := s.tombstone.or (some none)
    row := none
    fenced := s.fenced || !s.isTombstoned }

/-- `tear_down_owned_partition`. -/
def tearDown (out : Outcome) (s : Slot) : Slot :=
  if !s.isMine then { s with delete := recordFailure s.delete out.now }
  else if isBackedOff s.delete out.now then s
  -- only a mounted partition has writers to drain
  else if (s.mounted && !out.drained) || !out.deleted then
    { s.fence with delete := recordFailure s.delete out.now }
  else
    { s.fence with
      queue := s.queue ++ [.confirmRemove], delete := none, fenced := false, work := s.work + 1 }

def count : Slot := { s with work := s.work + 1 }

/-- The building part of `reconcile_additions`: `epoch` is the target's, `committed` the created
revision that `fetch_partition_build_inputs` reads afterwards. -/
def buildMissing (epoch : Nat) (committed : Option Nat) (out : Outcome) (s : Slot) : Slot :=
  if s.hasStagedInsertOwned then s.count
  else if isBackedOff s.add out.now then s
  else match committed with
    | none => s
    | some created =>
      if !out.resolved then { s with add := recordFailure s.add out.now }
      -- a recreate landed after the target was read
      else if created ≠ epoch then if out.unmarked then s.count.tearDown out else s.count
      else match out.built with
        | .partition =>
          { s.count with queue := s.queue ++ [.insertOwned created], add := none }
        | .fenced => { s with tombstone := some (some created) }
        | .deferred => s
        | .failed => { s with add := recordFailure s.add out.now }

/-- One turn of `reconcile_additions`. -/
def reconcileAddition (epoch : Nat) (committed : Option Nat) (out : Outcome) (s : Slot) : Slot :=
  if s.mounted then
    if s.isTombstoned then
      -- without a `Delete` record a `ConfirmRemove` is in flight
      if s.delete.isNone then s.count else s.tearDown out
    else if s.shardsTableHasEpoch epoch then s
    else s.count.tearDown out
  else if s.isTombstoned then
    if s.delete.isSome || s.failedRevision.any (· < epoch) then s.tearDown out else s
  else if !s.isMine then
    if s.shardsTableHasEpoch epoch then s
    else { s.count with queue := s.queue ++ [.insertRouted s.owner epoch] }
  else s.buildMissing epoch committed out

/-- The teardown loops of `reconcile_removals`: owned, fenced and unbuilt ghosts. -/
def removeGhost (out : Outcome) (s : Slot) : Slot :=
  if s.mounted || s.isTombstoned || s.unbuilt || s.add.isSome then s.tearDown out else s

/-- The last loop of `reconcile_removals`: rows of namespaces the shard no longer owns. -/
def removeRow : Slot :=
  if s.row.isSome && !s.mounted then { s.count with queue := s.queue ++ [.removeRouted] } else s

/-- `prune_failure_state_stale`, for a namespace outside of the target. -/
def prune : Slot :=
  if s.mounted then s else { s with add := none, delete := none }

/-- One pass over a namespace. The `unbuilt` mark goes once the namespace is mounted or was
collected as a ghost. -/
def visit (target committed : Option Nat) (out : Outcome) (s : Slot) : Slot :=
  match target with
  | some epoch =>
    have added := { s with work := 0 }.reconcileAddition epoch committed out
    { added with unbuilt := added.unbuilt && !added.mounted }
  | none =>
    { removeRow ({ s with work := 0 }.removeGhost out) with unbuilt := false }.prune

/-- One arm of `apply_reconcile_ops`. -/
def applyOp : ReconcileOp → Slot
  | .insertOwned epoch =>
    if s.mounted || s.isTombstoned then s
    else { s with mounted := true, row := some ⟨s.shardId, epoch⟩, mounts := s.mounts + 1 }
  | .insertRouted owner epoch => { s with row := some ⟨owner, epoch⟩ }
  | .confirmRemove => { s with mounted := false, tombstone := none }
  | .removeRouted => { s with row := none }

def drain : Slot := s.queue.foldl applyOp { s with queue := [] }

end Slot

variable {Ns : Type} [DecidableEq Ns]

/-- A partition-shaping commit: each bumps `Streams::revision` and stamps what it creates. -/
inductive Commit (Ns : Type) where
  | create (partitions : List Ns)
  | delete (partitions : List Ns)

structure Shard (Ns : Type) where
  /-- The created revision of every committed partition. -/
  committed : Ns → Option Nat
  revision : Nat
  slots : Ns → Slot
  lastRevision : Option Nat
  lastPassNoop : Bool
  lastOffsetEpoch : Nat

/-- What a pass meets. `landed` commits after the pass read its target, `pumped` says before which
visits the pump drained the queue, `quiet` that no offset cleanup completed and no frame is parked,
`elsewhere` is the work counted by the other parts of the pass. -/
structure PassInputs (Ns : Type) where
  now : Nat
  quiet : Bool
  landed : List (Commit Ns)
  pumped : Ns → Bool
  elsewhere : Nat
  outcome : Ns → Outcome

namespace Shard

def commit (s : Shard Ns) : Commit Ns → Shard Ns
  | .create partitions =>
    { s with
      revision := s.revision + 1
      committed := fun ns =>
        if ns ∈ partitions ∧ s.committed ns = none then some (s.revision + 1) else s.committed ns }
  | .delete partitions =>
    { s with
      revision := s.revision + 1
      committed := fun ns => if ns ∈ partitions then none else s.committed ns }

theorem landed_revision (s : Shard Ns) (landed : List (Commit Ns)) :
    (landed.foldl commit s).revision = s.revision + landed.length := by
  induction landed generalizing s with
  | nil => rfl
  | cons c landed ih =>
    rw [foldl_cons, ih, length_cons]
    cases c <;> simp only [commit] <;> omega

def met (s : Shard Ns) (inp : PassInputs Ns) (ns : Ns) : Slot :=
  if inp.pumped ns then (s.slots ns).drain else s.slots ns

def visit (s : Shard Ns) (inp : PassInputs Ns) (ns : Ns) : Slot :=
  (s.met inp ns).visit (s.committed ns) ((inp.landed.foldl commit s).committed ns) (inp.outcome ns)

variable [Fintype Ns]

/-- `consumer_group_offsets_reconcile_epoch`. -/
def offsetEpoch (s : Shard Ns) : Nat := ∑ ns, (s.slots ns).mounts

def hasRetryDue (s : Shard Ns) (now : Nat) : Bool :=
  decide (∃ ns, (s.slots ns).add.any (·.nextRetryAt ≤ now) ∨
    (s.slots ns).delete.any (·.nextRetryAt ≤ now))

def fastSkips (s : Shard Ns) (inp : PassInputs Ns) : Bool :=
  s.lastRevision = some s.revision && s.lastPassNoop && !s.hasRetryDue inp.now && inp.quiet &&
    s.lastOffsetEpoch = s.offsetEpoch

/-- `reconcile_once` past the fast-skip. -/
def fullPass (s : Shard Ns) (inp : PassInputs Ns) : Shard Ns :=
  { inp.landed.foldl commit s with
    slots := s.visit inp
    lastRevision := some s.revision
    lastOffsetEpoch := s.offsetEpoch
    lastPassNoop := ∑ ns, (s.visit inp ns).work + inp.elsewhere = 0 }

def reconcileOnce (s : Shard Ns) (inp : PassInputs Ns) : Shard Ns :=
  if s.fastSkips inp then s else s.fullPass inp

def applyReconcileOps (s : Shard Ns) : Shard Ns :=
  { s with slots := fun ns => (s.slots ns).drain }

end Shard

variable [Fintype Ns]

/-- What boot leaves for one namespace. It loads and fences the namespaces that hash to the
shard. -/
structure Slot.Booted (s : Slot) : Prop where
  queue : s.queue = []
  delete : s.delete = none
  fenced : s.fenced = false
  tombstone_mine : s.isTombstoned → s.isMine
  row_served : s.isMine → s.row.isSome → s.mounted ∧ s.tombstone = none

/-- The states of a shard whose full passes all start from a state and inputs that satisfy `ok`. -/
inductive Reaches (ok : Shard Ns → PassInputs Ns → Prop) : Shard Ns → Prop
  | boot {s} (slots : ∀ ns, (s.slots ns).Booted) (armed : s.lastPassNoop = false)
      (last : s.lastRevision = none) : Reaches ok s
  | commit {s} (c : Commit Ns) : Reaches ok s → Reaches ok (s.commit c)
  | pump {s} : Reaches ok s → Reaches ok s.applyReconcileOps
  | pass {s} (inp : PassInputs Ns) : Reaches ok s → (s.fastSkips inp = false → ok s inp) →
      Reaches ok (s.reconcileOnce inp)

/-! ## What a teardown does -/

namespace Slot

variable {target committed : Option Nat} {epoch : Nat} {out : Outcome} {s : Slot}

theorem tearDown_cases (out : Outcome) (s : Slot) :
    (s.isMine = false ∧ s.tearDown out = { s with delete := recordFailure s.delete out.now }) ∨
    (s.isMine ∧ isBackedOff s.delete out.now ∧ s.tearDown out = s) ∨
    (s.isMine ∧ s.tearDown out = { s.fence with delete := recordFailure s.delete out.now }) ∨
    (s.isMine ∧ s.tearDown out = { s.fence with
      queue := s.queue ++ [.confirmRemove], delete := none, fenced := false, work := s.work + 1 }) := by
  unfold tearDown
  cases hmine : s.isMine with
  | false => simp
  | true =>
    by_cases hback : isBackedOff s.delete out.now
    · simp [hback]
    · cases (s.mounted && !out.drained) || !out.deleted <;> simp [hback]

@[simp] theorem tearDown_mounted : (s.tearDown out).mounted = s.mounted := by
  rcases tearDown_cases out s with ⟨_, h⟩ | ⟨_, _, h⟩ | ⟨_, h⟩ | ⟨_, h⟩ <;> simp [h, fence]

@[simp] theorem tearDown_mounts : (s.tearDown out).mounts = s.mounts := by
  rcases tearDown_cases out s with ⟨_, h⟩ | ⟨_, _, h⟩ | ⟨_, h⟩ | ⟨_, h⟩ <;> simp [h, fence]

theorem le_work_tearDown : s.work ≤ (s.tearDown out).work := by
  rcases tearDown_cases out s with ⟨_, h⟩ | ⟨_, _, h⟩ | ⟨_, h⟩ | ⟨_, h⟩ <;> simp [h, fence]

theorem tearDown_row (hrow : s.row = none) : (s.tearDown out).row = none := by
  rcases tearDown_cases out s with ⟨_, h⟩ | ⟨_, _, h⟩ | ⟨_, h⟩ | ⟨_, h⟩ <;> simp [h, fence, hrow]

theorem tearDown_isTombstoned (ht : s.isTombstoned) : (s.tearDown out).isTombstoned := by
  rw [isTombstoned] at ht ⊢
  rcases tearDown_cases out s with ⟨_, h⟩ | ⟨_, _, h⟩ | ⟨_, h⟩ | ⟨_, h⟩ <;> simp [h, fence, ht]

theorem tearDown_held : (s.tearDown out).isTombstoned ∨ (s.tearDown out).delete.isSome := by
  rcases tearDown_cases out s with ⟨_, h⟩ | ⟨_, hback, h⟩ | ⟨_, h⟩ | ⟨_, h⟩
  · simp [h, recordFailure]
  · right
    rw [h]
    cases hdelete : s.delete with
    | none => simp [isBackedOff, hdelete] at hback
    | some record => rfl
  · simp [h, fence, isTombstoned]
  · simp [h, fence, isTombstoned]

theorem tearDown_record (h : s.fenced → s.delete.isSome) :
    (s.tearDown out).fenced → (s.tearDown out).delete.isSome := by
  rcases tearDown_cases out s with ⟨_, e⟩ | ⟨_, _, e⟩ | ⟨_, e⟩ | ⟨_, e⟩
  · simp [e, recordFailure]
  · simpa [e] using h
  · simp [e, recordFailure]
  · simp [e]

/-! ## The slot invariant -/

/-- The queue of an owned namespace: builds, then removals, and removals only behind a tombstone
that some teardown settled. -/
def Staged (s : Slot) : Prop :=
  ∃ inserts removes, s.queue = inserts ++ removes ∧ (∀ op ∈ inserts, ∃ e, op = .insertOwned e) ∧
    (∀ op ∈ removes, op = .confirmRemove) ∧ (removes ≠ [] → s.isTombstoned ∧ s.fenced = false)

def IsRoute (s : Slot) (op : ReconcileOp) : Prop :=
  (∃ o e, op = .insertRouted o e) ∨ (op = .removeRouted ∧ s.mounted = false)

structure Inv (s : Slot) : Prop where
  fenced_tombstoned : s.fenced → s.isTombstoned
  tombstone_mine : s.isTombstoned → s.isMine
  row_served : s.isMine → s.row.isSome → s.mounted ∧ s.tombstone = none
  staged : s.isMine → s.Staged
  routed : s.isMine = false → ∀ op ∈ s.queue, s.IsRoute op

theorem Booted.inv (h : s.Booted) : s.Inv where
  fenced_tombstoned := by simp [h.fenced]
  tombstone_mine := h.tombstone_mine
  row_served := h.row_served
  staged := fun _ => ⟨[], [], by simp [h.queue]⟩
  routed := by simp [h.queue]

theorem Inv.row_none (h : s.Inv) (hmine : s.isMine) (hm : s.mounted = false) : s.row = none := by
  cases hrow : s.row with
  | none => rfl
  | some location => simpa [hm] using h.row_served hmine (by simp [hrow])

theorem Inv.congr (h : s.Inv) (add delete : Option FailureRecord) (unbuilt : Bool) (work : Nat) :
    { s with add, delete, unbuilt, work }.Inv :=
  ⟨h.fenced_tombstoned, h.tombstone_mine, h.row_served, h.staged, h.routed⟩

theorem Staged.remove (h : s.Staged) (work : Nat) : { s.fence with
    queue := s.queue ++ [ReconcileOp.confirmRemove], delete := none, fenced := false, work }.Staged := by
  obtain ⟨inserts, removes, hq, hi, hr, -⟩ := h
  refine ⟨inserts, removes ++ [.confirmRemove], by simp [hq], hi,
    forall_mem_append.mpr ⟨hr, by simp⟩, by simp [fence, isTombstoned]⟩

theorem Inv.tearDown (h : s.Inv) : (s.tearDown out).Inv := by
  rcases tearDown_cases out s with ⟨_, e⟩ | ⟨_, _, e⟩ | ⟨hmine, e⟩ | ⟨hmine, e⟩ <;> rw [e]
  · exact h.congr ..
  · exact h
  · refine ⟨by simp [fence, isTombstoned], fun _ => hmine, by simp [fence], fun _ => ?_,
      fun hne => by cases hmine.symm.trans hne⟩
    obtain ⟨inserts, removes, hq, hi, hr, hback⟩ := h.staged hmine
    refine ⟨inserts, removes, hq, hi, hr, fun hne => ⟨by simp [fence, isTombstoned], ?_⟩⟩
    simp [fence, hback hne]
  · exact ⟨by simp, fun _ => hmine, by simp [fence], fun _ => (h.staged hmine).remove _,
      fun hne => by cases hmine.symm.trans hne⟩

theorem Inv.insertOwned (h : s.Inv) (hmine : s.isMine) (ht : s.isTombstoned = false) (e : Nat) :
    { s with queue := s.queue ++ [ReconcileOp.insertOwned e] }.Inv := by
  refine ⟨h.fenced_tombstoned, h.tombstone_mine, h.row_served, fun _ => ?_,
    fun hne => by cases hmine.symm.trans hne⟩
  obtain ⟨inserts, removes, hq, hi, hr, hback⟩ := h.staged hmine
  obtain rfl : removes = [] := by
    by_contra hne
    simp [ht] at hback
    exact hne hback
  refine ⟨inserts ++ [.insertOwned e], [], by simp [hq],
    forall_mem_append.mpr ⟨hi, by simp⟩, by simp, by simp⟩

theorem Inv.route (h : s.Inv) (hmine : s.isMine = false) {op : ReconcileOp} (hop : s.IsRoute op) :
    { s with queue := s.queue ++ [op] }.Inv := by
  refine ⟨h.fenced_tombstoned, h.tombstone_mine, h.row_served,
    (fun he => by cases hmine.symm.trans he), fun _ => ?_⟩
  exact forall_mem_append.mpr ⟨h.routed hmine, forall_mem_singleton.mpr hop⟩

/-- The loader's verdict over damaged files of an unmounted namespace. -/
theorem Inv.loaderFence (h : s.Inv) (hmine : s.isMine) (hm : s.mounted = false) (revision : Nat) :
    { s with tombstone := some (some revision) }.Inv := by
  refine ⟨fun _ => rfl, fun _ => hmine, ?_, fun _ => ?_,
    fun hne => by cases hmine.symm.trans hne⟩
  · simp [h.row_none hmine hm]
  · obtain ⟨inserts, removes, hq, hi, hr, hback⟩ := h.staged hmine
    exact ⟨inserts, removes, hq, hi, hr, fun hne => ⟨rfl, (hback hne).2⟩⟩

theorem buildMissing_cases (epoch : Nat) (committed : Option Nat) (out : Outcome) (s : Slot) :
    (∃ add work, s.buildMissing epoch committed out = { s with add, work }) ∨
    (∃ e, s.buildMissing epoch committed out =
      { s with queue := s.queue ++ [.insertOwned e], add := none, work := s.work + 1 }) ∨
    (∃ e, s.buildMissing epoch committed out = { s with tombstone := some (some e) }) ∨
    s.buildMissing epoch committed out = s.count.tearDown out := by
  have hsame : ∃ add work, s = { s with add, work } := ⟨s.add, s.work, rfl⟩
  unfold buildMissing
  cases committed with
  | none => split_ifs <;> first | exact .inl hsame | exact .inl ⟨_, _, rfl⟩
  | some created =>
    dsimp only
    split_ifs
    · exact .inl ⟨_, _, rfl⟩
    · exact .inl hsame
    · exact .inl ⟨_, _, rfl⟩
    · exact .inr (.inr (.inr rfl))
    · exact .inl ⟨_, _, rfl⟩
    · cases out.built with
      | partition => exact .inr (.inl ⟨_, rfl⟩)
      | fenced => exact .inr (.inr (.inl ⟨_, rfl⟩))
      | deferred => exact .inl hsame
      | failed => exact .inl ⟨_, _, rfl⟩

theorem Inv.reconcileAddition (h : s.Inv) : (s.reconcileAddition epoch committed out).Inv := by
  have htorn : (s.tearDown out).Inv := h.tearDown
  have hcount : s.count.Inv := h.congr ..
  have hstale : (s.count.tearDown out).Inv := hcount.tearDown
  unfold Slot.reconcileAddition
  split
  · split_ifs <;> assumption
  split
  · split_ifs <;> assumption
  rename_i hm ht
  simp only [Bool.not_eq_true] at hm ht
  split <;> rename_i hmine
  · split_ifs
    · exact h
    · exact hcount.route ((Bool.not_eq_true' _).mp hmine) (.inl ⟨s.owner, epoch, rfl⟩)
  · simp only [Bool.not_eq_true', Bool.not_eq_false] at hmine
    rcases buildMissing_cases epoch committed out s with ⟨_, _, e⟩ | ⟨_, e⟩ | ⟨_, e⟩ | e <;> rw [e]
    · exact h.congr ..
    · exact (h.insertOwned hmine ht _).congr ..
    · exact h.loaderFence hmine hm _
    · exact hstale

theorem Inv.removeGhost (h : s.Inv) : (s.removeGhost out).Inv := by
  unfold Slot.removeGhost
  split
  · exact h.tearDown
  · exact h

theorem Inv.removeRow (h : s.Inv) : s.removeRow.Inv := by
  unfold Slot.removeRow
  split
  · rename_i hrow
    simp only [Bool.and_eq_true, Bool.not_eq_true'] at hrow
    have hcount : s.count.Inv := h.congr ..
    refine hcount.route (Bool.eq_false_iff.mpr fun hmine => ?_) (.inr ⟨rfl, hrow.2⟩)
    simp [h.row_none hmine hrow.2] at hrow
  · exact h

theorem Inv.visit (h : s.Inv) : (s.visit target committed out).Inv := by
  have hzero : { s with work := 0 }.Inv := h.congr ..
  cases target with
  | some epoch => exact hzero.reconcileAddition.congr ..
  | none =>
    have hghost : ({ s with work := 0 }.removeGhost out).Inv := hzero.removeGhost
    have hrow := hghost.removeRow
    simp only [Slot.visit, prune]
    split
    · exact hrow.congr ..
    · exact hrow.congr ..

/-! ## The pump -/

theorem foldl_insertOwned {ops : List ReconcileOp} (hops : ∀ op ∈ ops, ∃ e, op = .insertOwned e)
    (hheld : s.mounted ∨ s.isTombstoned) : ops.foldl applyOp s = s := by
  induction ops with
  | nil => rfl
  | cons op ops ih =>
    obtain ⟨e, rfl⟩ := hops op (mem_cons_self ..)
    have hkeep : s.applyOp (.insertOwned e) = s := if_pos (by simpa using hheld)
    simpa [hkeep] using ih fun op hop => hops op (mem_cons_of_mem _ hop)

theorem foldl_confirmRemove {ops : List ReconcileOp} (hops : ∀ op ∈ ops, op = .confirmRemove) :
    ops.foldl applyOp s = if ops = [] then s else { s with mounted := false, tombstone := none } := by
  induction ops generalizing s with
  | nil => rfl
  | cons op ops ih =>
    obtain rfl := hops op (mem_cons_self ..)
    rw [foldl_cons, ih fun op hop => hops op (mem_cons_of_mem _ hop)]
    split <;> simp [applyOp]

theorem foldl_routed {ops : List ReconcileOp} (hops : ∀ op ∈ ops, s.IsRoute op) :
    ∃ row, ops.foldl applyOp s = { s with row } ∧ (row = s.row ∨ (row = none ∧ s.mounted = false) ∨
      ∃ o e, .insertRouted o e ∈ ops ∧ row = some ⟨o, e⟩) := by
  induction ops generalizing s with
  | nil => exact ⟨s.row, rfl, .inl rfl⟩
  | cons op ops ih =>
    have htail := fun op' hop => hops op' (mem_cons_of_mem op hop)
    rcases hops op (mem_cons_self ..) with ⟨o, e, rfl⟩ | ⟨rfl, hm⟩
    · obtain ⟨row, hrow, hcases⟩ := ih (s := { s with row := some ⟨o, e⟩ }) htail
      refine ⟨row, hrow, .inr ?_⟩
      rcases hcases with rfl | hrow | ⟨o, e, hmem, rfl⟩
      · exact .inr ⟨o, e, mem_cons_self .., rfl⟩
      · exact .inl hrow
      · exact .inr ⟨o, e, mem_cons_of_mem _ hmem, rfl⟩
    · obtain ⟨row, hrow, hcases⟩ := ih (s := { s with row := none }) htail
      refine ⟨row, hrow, .inr ?_⟩
      rcases hcases with hrow | hrow | ⟨o, e, hmem, rfl⟩
      · exact .inl ⟨hrow, hm⟩
      · exact .inl hrow
      · exact .inr ⟨o, e, mem_cons_of_mem _ hmem, rfl⟩

/-- What the pump makes of a slot: at most its row moves, or its removal is confirmed, or its
build is mounted. -/
theorem drain_cases (h : s.Inv) :
    (∃ row, s.drain = { s with queue := [], row } ∧ (s.isMine → row = s.row) ∧
      (row = s.row ∨ (row = none ∧ s.mounted = false) ∨
        ∃ o e, .insertRouted o e ∈ s.queue ∧ row = some ⟨o, e⟩)) ∨
    (s.row = none ∧ s.fenced = false ∧
      s.drain = { s with queue := [], mounted := false, tombstone := none }) ∨
    (s.tombstone = none ∧ ∃ location, s.drain =
      { s with queue := [], mounted := true, row := some location, mounts := s.mounts + 1 }) := by
  cases hmine : s.isMine with
  | false =>
    obtain ⟨row, hrow, hcases⟩ := foldl_routed (s := { s with queue := [] }) (h.routed hmine)
    exact .inl ⟨row, hrow, by simp, hcases⟩
  | true =>
    obtain ⟨inserts, removes, hq, hi, hr, hback⟩ := h.staged hmine
    unfold drain
    rw [hq, foldl_append, foldl_confirmRemove hr]
    by_cases hheld : s.mounted ∨ s.isTombstoned
    · rw [foldl_insertOwned (s := { s with queue := [] }) hi hheld]
      split
      · exact .inl ⟨s.row, rfl, fun _ => rfl, .inl rfl⟩
      · rename_i hne
        obtain ⟨ht, hfenced⟩ := hback hne
        refine .inr (.inl ⟨?_, hfenced, rfl⟩)
        -- a tombstoned namespace of this shard has no row
        by_contra hrow
        have hserved := h.row_served hmine (Option.isSome_iff_ne_none.mpr hrow)
        simp [isTombstoned, hserved.2] at ht
    · -- a queued removal stands behind a tombstone
      push Not at hheld
      rw [if_pos (by by_contra hne; exact hheld.2 (hback hne).1)]
      cases inserts with
      | nil => exact .inl ⟨s.row, rfl, fun _ => rfl, .inl rfl⟩
      | cons op inserts =>
        obtain ⟨e, rfl⟩ := hi op (mem_cons_self ..)
        refine .inr (.inr ⟨by simpa [isTombstoned] using hheld.2, ⟨s.shardId, e⟩, ?_⟩)
        have hmount : ({ s with queue := [] } : Slot).applyOp (.insertOwned e) =
            { s with queue := [], mounted := true, row := some ⟨s.shardId, e⟩,
                     mounts := s.mounts + 1 } := if_neg (by simpa [isTombstoned] using hheld)
        rw [foldl_cons, hmount]
        exact foldl_insertOwned (fun op hop => hi op (mem_cons_of_mem _ hop)) (.inl rfl)

theorem Inv.drain (h : s.Inv) : s.drain.Inv := by
  have hstaged : ∀ t : Slot, t.queue = [] → t.Staged := fun t ht => ⟨[], [], by simp [ht]⟩
  rcases drain_cases h with ⟨row, e, hrow, -⟩ | ⟨hrow, hfenced, e⟩ | ⟨ht, _, e⟩ <;> rw [e]
  · refine ⟨h.fenced_tombstoned, h.tombstone_mine, fun hmine => ?_, fun _ => hstaged _ rfl, by simp⟩
    rw [hrow hmine]
    exact h.row_served hmine
  · exact ⟨by simp [hfenced], by simp [isTombstoned], by simp [hrow], fun _ => hstaged _ rfl,
      by simp⟩
  · exact ⟨h.fenced_tombstoned, h.tombstone_mine, fun _ _ => ⟨rfl, ht⟩, fun _ => hstaged _ rfl,
      by simp⟩

theorem drain_kept (h : s.Inv) : s.drain.fenced = s.fenced ∧ s.drain.delete = s.delete ∧
    s.drain.queue = [] ∧ s.mounts ≤ s.drain.mounts := by
  rcases drain_cases h with ⟨_, e, -⟩ | ⟨-, -, e⟩ | ⟨-, _, e⟩ <;> simp [e]

theorem drain_of_fenced (h : s.Inv) (hfenced : s.fenced) : s.drain = { s with queue := [] } := by
  have htomb := h.fenced_tombstoned hfenced
  rcases drain_cases h with ⟨row, e, hrow, -⟩ | ⟨-, hf, -⟩ | ⟨ht, -⟩
  · rw [e, hrow (h.tombstone_mine htomb)]
  · simp [hf] at hfenced
  · simp [isTombstoned, ht] at htomb

/-! ## Kept records -/

theorem reconcileAddition_record (h : s.fenced → s.delete.isSome) :
    (s.reconcileAddition epoch committed out).fenced →
      (s.reconcileAddition epoch committed out).delete.isSome := by
  have htorn : (s.tearDown out).fenced → (s.tearDown out).delete.isSome := tearDown_record h
  have hstale : (s.count.tearDown out).fenced → (s.count.tearDown out).delete.isSome :=
    tearDown_record h
  unfold reconcileAddition
  split_ifs <;> try assumption
  rcases buildMissing_cases epoch committed out s with ⟨_, _, e⟩ | ⟨_, e⟩ | ⟨_, e⟩ | e <;>
    simpa only [e]

/-- A visit outside of the target that loses a record: of an unmounted namespace that is fenced and
whose delete waits or fails, or of one without a tombstone that was never built and whose delete
fails. -/
def Forgets (out : Outcome) (s : Slot) : Prop :=
  s.mounted = false ∧ s.isMine ∧
    if s.isTombstoned then s.fenced ∧ (isBackedOff s.delete out.now ∨ out.deleted = false)
    else (s.unbuilt ∨ s.add.isSome) ∧ isBackedOff s.delete out.now = false ∧ out.deleted = false

instance (out : Outcome) (s : Slot) : Decidable (s.Forgets out) := by
  unfold Forgets
  infer_instance

theorem forgets_iff (h : s.Inv) (hm : s.mounted = false) :
    s.Forgets out ↔ (s.removeGhost out).fenced := by
  have hfenced := h.fenced_tombstoned
  have hmine := h.tombstone_mine
  unfold Forgets removeGhost tearDown fence
  cases ht : s.isTombstoned <;> cases hback : isBackedOff s.delete out.now <;>
    cases hd : out.deleted <;> simp_all <;> split_ifs <;> simp_all

theorem removeRow_kept : s.removeRow.mounted = s.mounted ∧ s.removeRow.fenced = s.fenced ∧
    s.removeRow.delete = s.delete := by
  unfold removeRow count
  split <;> exact ⟨rfl, rfl, rfl⟩

theorem removeGhost_mounted : (s.removeGhost out).mounted = s.mounted := by
  unfold removeGhost
  split <;> simp

/-- Outside of the target, exactly the visits that forget end fenced without a record. -/
theorem removal_record (h : s.Inv) (hrecord : s.fenced → s.delete.isSome) :
    ({ removeRow (s.removeGhost out) with unbuilt := false }.prune.fenced ∧
      { removeRow (s.removeGhost out) with unbuilt := false }.prune.delete = none) ↔
    s.Forgets out := by
  obtain ⟨hmounted, hfenced, hdelete⟩ := removeRow_kept (s := s.removeGhost out)
  unfold prune
  cases hm : s.mounted with
  | true =>
    have htorn : (s.tearDown out).fenced → (s.tearDown out).delete.isSome := tearDown_record hrecord
    rw [if_pos (by rw [hmounted, removeGhost_mounted, hm])]
    simp only [hfenced, hdelete, Forgets, hm, Bool.true_eq_false, false_and, iff_false, not_and]
    simpa only [removeGhost, hm, Bool.true_or, if_true, ← Option.isSome_iff_ne_none] using htorn
  | false =>
    rw [if_neg (by simp [hmounted, removeGhost_mounted, hm]), forgets_iff h hm]
    simp [hfenced]

theorem visit_none_record (h : s.Inv) (hrecord : s.fenced → s.delete.isSome) :
    ((s.visit none committed out).fenced ∧ (s.visit none committed out).delete = none) ↔
      s.Forgets out :=
  removal_record (s := { s with work := 0 }) (h.congr ..) hrecord

theorem visit_record (h : s.Inv) (hrecord : s.fenced → s.delete.isSome)
    (hok : target = none → ¬ s.Forgets out) :
    (s.visit target committed out).fenced → (s.visit target committed out).delete.isSome := by
  cases target with
  | some epoch => exact reconcileAddition_record hrecord
  | none =>
    intro hfenced
    by_contra hnone
    exact hok rfl ((visit_none_record h hrecord).mp ⟨hfenced, by simpa using hnone⟩)

/-! ## Settled slots -/

/-- Nothing left to do: a served partition is committed at the epoch of its row or waits for its
retry, and a row without a partition names the committed epoch. -/
structure Settled (committed : Option Nat) (s : Slot) : Prop where
  served : s.mounted → s.isTombstoned = false →
    (∃ e, committed = some e ∧ s.shardsTableHasEpoch e) ∨ s.delete.isSome
  routed : s.mounted = false → ∀ location, s.row = some location →
    committed = some location.epoch

theorem Settled.of_row_none (hm : s.mounted = false) (hrow : s.row = none) :
    s.Settled committed where
  served := by simp [hm]
  routed := by simp [hrow]

theorem Settled.of_row (hrow : s.shardsTableHasEpoch epoch) : s.Settled (some epoch) where
  served := fun _ _ => .inl ⟨epoch, rfl, hrow⟩
  routed := by
    intro _ location hloc
    simp only [shardsTableHasEpoch, hloc, Option.any_some, decide_eq_true_eq] at hrow
    rw [hrow]

theorem buildMissing_row_none (hm : s.mounted = false) (hrow : s.row = none) :
    (s.buildMissing epoch committed out).Settled target := by
  rcases buildMissing_cases epoch committed out s with ⟨_, _, e⟩ | ⟨_, e⟩ | ⟨_, e⟩ | e <;> rw [e]
  · exact .of_row_none hm hrow
  · exact .of_row_none hm hrow
  · exact .of_row_none hm hrow
  · exact .of_row_none (by simpa [count] using hm) (tearDown_row hrow)

theorem reconcileAddition_settled (h : s.Inv)
    (hwork : (s.reconcileAddition epoch committed out).work = 0) :
    (s.reconcileAddition epoch committed out).Settled (some epoch) := by
  have hstale : (s.count.tearDown out).work ≠ 0 := by
    have hle : s.work + 1 ≤ (s.count.tearDown out).work := le_work_tearDown (s := s.count)
    omega
  unfold reconcileAddition at hwork ⊢
  by_cases hm : s.mounted
  · rw [if_pos hm] at hwork ⊢
    by_cases ht : s.isTombstoned
    · rw [if_pos ht] at hwork ⊢
      split_ifs at hwork ⊢
      · cases hwork
      · exact ⟨by simp [tearDown_isTombstoned ht], by simp [hm]⟩
    · rw [if_neg ht] at hwork ⊢
      split_ifs at hwork ⊢ with hrow
      · exact .of_row hrow
      · exact absurd hwork hstale
  rw [if_neg hm] at hwork ⊢
  simp only [Bool.not_eq_true] at hm
  by_cases ht : s.isTombstoned
  · have hrow := h.row_none (h.tombstone_mine ht) hm
    rw [if_pos ht]
    split_ifs
    · exact .of_row_none (by simpa using hm) (tearDown_row hrow)
    · exact .of_row_none hm hrow
  rw [if_neg ht] at hwork ⊢
  cases hmine : s.isMine with
  | true =>
    simp only [Bool.not_true, Bool.false_eq_true, if_false]
    exact buildMissing_row_none hm (h.row_none hmine hm)
  | false =>
    simp only [hmine, Bool.not_false, if_true] at hwork ⊢
    split_ifs at hwork ⊢ with hrow
    · exact .of_row hrow
    · cases hwork

theorem removal_settled (hwork : (removeRow (s.removeGhost out)).work = 0) :
    { removeRow (s.removeGhost out) with unbuilt := false }.prune.Settled none := by
  simp only [removeRow, prune, removeGhost, count] at hwork ⊢
  by_cases hm : s.mounted
  · have hheld : (s.tearDown out).isTombstoned ∨ (s.tearDown out).delete.isSome := tearDown_held
    simp only [hm, Bool.true_or, if_true, tearDown_mounted, Bool.not_true, Bool.and_false,
      Bool.false_eq_true, if_false]
    refine ⟨fun _ ht => .inr (hheld.resolve_left ?_), by simp⟩
    simpa [isTombstoned] using ht
  · simp only [Bool.not_eq_true] at hm
    split_ifs at hwork ⊢ <;> simp_all
    all_goals exact .of_row_none (by simp) (by simp_all)

theorem visit_settled (h : s.Inv) (hwork : (s.visit target committed out).work = 0) :
    (s.visit target committed out).Settled target := by
  have hzero : { s with work := 0 }.Inv := h.congr ..
  cases target with
  | some epoch =>
    obtain ⟨hserved, hrouted⟩ := reconcileAddition_settled hzero hwork
    exact ⟨hserved, hrouted⟩
  | none =>
    refine removal_settled (Eq.trans ?_ hwork)
    simp only [visit, prune]
    split <;> rfl

theorem visit_mounts : (s.visit target committed out).mounts = s.mounts := by
  cases target with
  | none =>
    simp only [visit, removeRow, prune, removeGhost, count]
    split_ifs <;> simp
  | some epoch =>
    simp only [visit, reconcileAddition, count]
    split_ifs <;> try simp
    rcases buildMissing_cases epoch committed out { s with work := 0 } with
      ⟨_, _, e⟩ | ⟨_, e⟩ | ⟨_, e⟩ | e <;> simp [e, count]

theorem insertRouted_mem_of_visit {o e : Nat} (hwork : (s.visit target committed out).work = 0)
    (hmem : .insertRouted o e ∈ (s.visit target committed out).queue) :
    .insertRouted o e ∈ s.queue := by
  have htorn : ∀ t : Slot, .insertRouted o e ∈ (t.tearDown out).queue → .insertRouted o e ∈ t.queue := by
    intro t
    rcases tearDown_cases out t with ⟨_, e⟩ | ⟨_, _, e⟩ | ⟨_, e⟩ | ⟨_, e⟩ <;> simp [e, fence]
  cases target with
  | none =>
    simp only [visit, removeRow, prune, removeGhost, count] at hmem
    split_ifs at hmem <;> simp at hmem <;> first | exact hmem | exact (htorn _ hmem :)
  | some epoch =>
    simp only [visit, reconcileAddition, count] at hwork hmem
    split_ifs at hwork hmem <;> try first | exact hmem | exact (htorn _ hmem :) | cases hwork
    rcases buildMissing_cases epoch committed out { s with work := 0 } with
      ⟨_, _, e⟩ | ⟨_, e⟩ | ⟨_, e⟩ | e <;> rw [e] at hmem
    · exact hmem
    · simpa using hmem
    · exact hmem
    · exact (htorn _ hmem :)

theorem Settled.drain (hs : s.Settled committed) (h : s.Inv) (hmounts : s.drain.mounts = s.mounts)
    (hrouted : ∀ o e, .insertRouted o e ∈ s.queue → committed = some e) :
    s.drain.Settled committed := by
  rcases drain_cases h with ⟨row, e, -, hrow⟩ | ⟨hrow, -, e⟩ | ⟨-, _, e⟩
  · rw [e]
    rcases hrow with rfl | ⟨rfl, hm⟩ | ⟨o, epoch, hmem, rfl⟩
    · exact ⟨hs.served, hs.routed⟩
    · exact .of_row_none hm rfl
    · rw [hrouted o epoch hmem]
      exact .of_row (by simp [shardsTableHasEpoch])
  · rw [e]
    exact .of_row_none rfl hrow
  · simp [e] at hmounts

end Slot

/-! ## Runs -/

namespace Shard

variable {s : Shard Ns} {inp : PassInputs Ns}

structure Inv (s : Shard Ns) : Prop where
  slots : ∀ ns, (s.slots ns).Inv
  last : ∀ r, s.lastRevision = some r → r ≤ s.revision ∧ s.lastOffsetEpoch ≤ s.offsetEpoch

theorem Inv.commit (h : s.Inv) (c : Commit Ns) : (s.commit c).Inv := by
  cases c <;> exact ⟨h.slots, fun r hr => ⟨(h.last r hr).1.trans (Nat.le_succ _), (h.last r hr).2⟩⟩

omit [DecidableEq Ns] in
theorem offsetEpoch_le_pump (h : s.Inv) : s.offsetEpoch ≤ s.applyReconcileOps.offsetEpoch :=
  Finset.sum_le_sum fun ns _ => (Slot.drain_kept (h.slots ns)).2.2.2

omit [DecidableEq Ns] in
theorem Inv.pump (h : s.Inv) : s.applyReconcileOps.Inv :=
  ⟨fun ns => (h.slots ns).drain,
    fun r hr => ⟨(h.last r hr).1, (h.last r hr).2.trans (offsetEpoch_le_pump h)⟩⟩

omit [DecidableEq Ns] [Fintype Ns] in
theorem met_cases (s : Shard Ns) (inp : PassInputs Ns) (ns : Ns) :
    s.met inp ns = (s.slots ns).drain ∨ s.met inp ns = s.slots ns := by
  cases h : inp.pumped ns <;> simp [met, h]

omit [DecidableEq Ns] in
theorem Inv.met (h : s.Inv) (ns : Ns) : (s.met inp ns).Inv := by
  rcases s.met_cases inp ns with e | e <;> rw [e]
  · exact (h.slots ns).drain
  · exact h.slots ns

theorem offsetEpoch_le_fullPass (h : s.Inv) : s.offsetEpoch ≤ (s.fullPass inp).offsetEpoch := by
  refine Finset.sum_le_sum fun ns _ => le_trans ?_ Slot.visit_mounts.ge
  rcases s.met_cases inp ns with e | e <;> rw [e]
  exact (Slot.drain_kept (h.slots ns)).2.2.2

theorem Inv.reconcileOnce (h : s.Inv) : (s.reconcileOnce inp).Inv := by
  unfold Shard.reconcileOnce
  split
  · exact h
  · refine ⟨fun ns => (h.met ns).visit, fun r hr => ?_⟩
    obtain rfl : s.revision = r := by simpa [fullPass] using hr
    exact ⟨by simp [fullPass, landed_revision], offsetEpoch_le_fullPass h⟩

end Shard

variable {ok : Shard Ns → PassInputs Ns → Prop} {s : Shard Ns}

theorem Reaches.inv (h : Reaches ok s) : s.Inv := by
  induction h with
  | boot slots _ last => exact ⟨fun ns => (slots ns).inv, by simp [last]⟩
  | commit c _ ih => exact ih.commit c
  | pump _ ih => exact ih.pump
  | pass inp _ _ ih => exact ih.reconcileOnce

/-- No namespace outside of the pass's target is one whose record its visit loses. -/
def FencesHeld (s : Shard Ns) (inp : PassInputs Ns) : Prop :=
  ∀ ns, s.committed ns = none → ¬ (s.met inp ns).Forgets (inp.outcome ns)

omit [DecidableEq Ns] in
theorem Shard.met_record {inp : PassInputs Ns} {ns : Ns} (h : s.Inv)
    (hrecord : (s.slots ns).fenced → (s.slots ns).delete.isSome) :
    (s.met inp ns).fenced → (s.met inp ns).delete.isSome := by
  obtain ⟨hf, hd, -⟩ := Slot.drain_kept (h.slots ns)
  rcases s.met_cases inp ns with e | e <;> simpa only [e, hf, hd] using hrecord

theorem Reaches.record (h : Reaches FencesHeld s) (ns : Ns) :
    (s.slots ns).fenced → (s.slots ns).delete.isSome := by
  induction h with
  | boot slots => simp [(slots ns).fenced]
  | commit c _ ih => cases c <;> exact ih
  | pump h ih =>
    obtain ⟨hf, hd, -⟩ := Slot.drain_kept (h.inv.slots ns)
    simpa only [Shard.applyReconcileOps, hf, hd] using ih
  | @pass s inp h hok ih =>
    unfold Shard.reconcileOnce
    split_ifs with hskip
    · exact ih
    · exact Slot.visit_record (h.inv.met ns) (Shard.met_record h.inv ih)
        (hok (by simpa using hskip) ns)

/-- While the fences hold at every pass, every fenced tombstone keeps its `Delete` record, and the
first pass after its backoff tears a recreated namespace down again. At a pass where they do not, a
fenced tombstone loses its record. -/
theorem fence_keeps_delete_record (h : Reaches FencesHeld s) :
    (∀ ns, (s.slots ns).fenced → ∃ record, (s.slots ns).delete = some record ∧
      ∀ inp epoch, s.committed ns = some epoch → record.nextRetryAt ≤ inp.now →
        record.nextRetryAt ≤ (inp.outcome ns).now →
        s.reconcileOnce inp = s.fullPass inp ∧
        if ((s.slots ns).mounted → (inp.outcome ns).drained) ∧ (inp.outcome ns).deleted then
          .confirmRemove ∈ ((s.reconcileOnce inp).slots ns).queue
        else ((s.reconcileOnce inp).slots ns).delete =
          recordFailure (some record) (inp.outcome ns).now) ∧
    ∀ inp, s.fastSkips inp = false → ¬ FencesHeld s inp →
      ∃ ns, ((s.reconcileOnce inp).slots ns).fenced ∧ ((s.reconcileOnce inp).slots ns).delete = none := by
  refine ⟨fun ns hfenced => ?_, fun inp hskip hbroken => ?_⟩
  case refine_2 =>
    simp only [FencesHeld, not_forall, not_not] at hbroken
    obtain ⟨ns, hc, hforgets⟩ := hbroken
    have hpass : (s.reconcileOnce inp).slots ns = s.visit inp ns := by
      simp [Shard.reconcileOnce, hskip, Shard.fullPass]
    refine ⟨ns, ?_⟩
    rw [hpass, Shard.visit, hc]
    exact (Slot.visit_none_record (h.inv.met ns) (Shard.met_record h.inv (h.record ns))).mpr hforgets
  obtain ⟨record, hrecord⟩ := Option.isSome_iff_exists.mp (h.record ns hfenced)
  refine ⟨record, hrecord, fun inp epoch hc hdue hnow => ?_⟩
  have hfull : s.reconcileOnce inp = s.fullPass inp := by
    have hretry : s.hasRetryDue inp.now := by
      simp only [Shard.hasRetryDue, decide_eq_true_eq]
      exact ⟨ns, .inr (by simpa [hrecord] using hdue)⟩
    simp [Shard.reconcileOnce, Shard.fastSkips, hretry]
  refine ⟨hfull, ?_⟩
  have hslot := h.inv.slots ns
  have htomb := hslot.fenced_tombstoned hfenced
  have hmine := hslot.tombstone_mine htomb
  have hback : isBackedOff (some record) (inp.outcome ns).now = false := by
    simpa [isBackedOff] using hnow
  obtain ⟨queue, hmet⟩ : ∃ queue, s.met inp ns = { s.slots ns with queue } := by
    rcases s.met_cases inp ns with e | e
    · exact ⟨[], e.trans (Slot.drain_of_fenced hslot hfenced)⟩
    · exact ⟨_, e⟩
  rw [hfull]
  -- tombstoned with a `Delete` record: both branches of the additions tear the namespace down
  simp only [Shard.fullPass, Shard.visit, hc, Slot.visit, hmet]
  generalize s.slots ns = slot at *
  simp only [Slot.isTombstoned, Slot.isMine] at htomb hmine
  simp only [Slot.reconcileAddition, Slot.tearDown, Slot.isTombstoned, Slot.isMine, htomb, hmine,
    hrecord, hback]
  cases slot.mounted <;> cases (inp.outcome ns).drained <;> cases (inp.outcome ns).deleted <;> simp

/-- A pass at which every build succeeds, and disk deletes as told. -/
def meets (deleted : Bool) (now : Nat) : PassInputs Unit :=
  ⟨now, true, [], fun _ => false, 0, fun _ => ⟨now, true, false, .partition, true, deleted⟩⟩

/-- Shard 0 booted without partitions; the one namespace hashes to `owner`. -/
def Shard.booted (owner : Nat) : Shard Unit where
  committed := fun _ => none
  revision := 0
  slots := fun _ => ⟨0, owner, false, none, none, none, none, false, [], 0, 0, false⟩
  lastRevision := none
  lastPassNoop := false
  lastOffsetEpoch := 0

theorem Shard.booted_reaches {ok : Shard Unit → PassInputs Unit → Prop} (owner : Nat) :
    Reaches ok (.booted owner) :=
  .boot (fun _ => ⟨rfl, rfl, rfl, by simp [booted, Slot.isTombstoned], by simp [booted]⟩) rfl rfl

/-- One partition created, staged by a pass and applied by the pump. -/
def appliedShard (owner : Nat) : Shard Unit :=
  (((Shard.booted owner).commit (.create [()])).reconcileOnce (meets true 0)).applyReconcileOps

/-- The delete of the mounted partition fails once, and the partition is recreated under the same ids. -/
def recreatedShard : Shard Unit :=
  (((appliedShard 0).commit (.delete [()])).reconcileOnce (meets false 1)).commit (.create [()])

/-- The build of a committed partition fails, and the partition is deleted. -/
def unbuiltShard : Shard Unit :=
  (((Shard.booted 0).commit (.create [()])).reconcileOnce
    ⟨0, true, [], fun _ => false, 0, fun _ => ⟨0, true, false, .failed, true, false⟩⟩).commit
      (.delete [()])

/-- The recreated partition is torn down once its backoff is over, and the record of the partition
that was never built is lost by a failing delete. -/
theorem failed_delete_keeps_record :
    (∃ record, (recreatedShard.slots ()).delete = some record ∧
      .confirmRemove ∈ ((recreatedShard.reconcileOnce (meets true record.nextRetryAt)).slots ()).queue) ∧
    ∃ ns, ((unbuiltShard.reconcileOnce (meets false 1)).slots ns).fenced ∧
      ((unbuiltShard.reconcileOnce (meets false 1)).slots ns).delete = none := by
  obtain ⟨record, hrecord, hpass⟩ := (fence_keeps_delete_record (s := recreatedShard)
    (.commit (.create [()]) (.pass (meets false 1) (.commit (.delete [()]) (.pump (.pass (meets true 0)
      (.commit (.create [()]) (Shard.booted_reaches 0)) fun _ => by unfold FencesHeld; decide)))
      fun _ => by unfold FencesHeld; decide))).1 () (by decide)
  have hdown := (hpass (meets true record.nextRetryAt) _ rfl le_rfl le_rfl).2
  rw [if_pos ⟨fun _ => rfl, rfl⟩] at hdown
  exact ⟨⟨record, hrecord, hdown⟩, (fence_keeps_delete_record (s := unbuiltShard)
    (.commit (.delete [()]) (.pass _ (.commit (.create [()]) (Shard.booted_reaches 0))
      fun _ => by unfold FencesHeld; decide))).2 (meets false 1) (by decide)
      (by unfold FencesHeld; decide)⟩

/-- The teardown fences the ghost, the disk delete fails, and the end of the same pass prunes the
record. -/
def forgottenShard : Shard Unit := unbuiltShard.reconcileOnce (meets false 1)

/-- After a recreate no later pass tears the fenced namespace down or builds it. -/
theorem forgotten_fence : Reaches (fun _ _ => True) forgottenShard ∧
    (forgottenShard.slots ()).fenced ∧ (forgottenShard.slots ()).delete = none ∧
    ∀ now, ((forgottenShard.commit (.create [()])).reconcileOnce (meets true now)).slots () =
      forgottenShard.slots () :=
  ⟨.pass _ (.commit _ (.pass _ (.commit _ (Shard.booted_reaches 0)) fun _ => trivial)) fun _ => trivial,
    by decide, by decide, fun _ => rfl⟩

/-! ## The fast-skip -/

/-- Every `InsertRouted` that waits for the pump when the pass comes by names the committed epoch. -/
def RoutesCurrent (s : Shard Ns) (inp : PassInputs Ns) : Prop :=
  ∀ ns o e, .insertRouted o e ∈ (s.met inp ns).queue → s.committed ns = some e

/-- The part of the skip's condition that the run decides. -/
def Shard.Armed (s : Shard Ns) : Prop :=
  s.lastPassNoop ∧ s.lastRevision = some s.revision ∧ s.lastOffsetEpoch = s.offsetEpoch

theorem Shard.fullPass_settled {inp : PassInputs Ns} (h : s.Inv) (hroutes : RoutesCurrent s inp)
    (hnoop : (s.fullPass inp).lastPassNoop)
    (hlast : (s.fullPass inp).lastRevision = some (s.fullPass inp).revision) (ns : Ns) :
    ((s.fullPass inp).slots ns).Settled ((s.fullPass inp).committed ns) ∧
      ∀ o e, .insertRouted o e ∈ ((s.fullPass inp).slots ns).queue →
        (s.fullPass inp).committed ns = some e := by
  have hlanded : inp.landed = [] := by
    simpa [fullPass, landed_revision] using hlast
  simp only [fullPass, decide_eq_true_eq, Nat.add_eq_zero_iff, Finset.sum_eq_zero_iff,
    Finset.mem_univ, true_imp_iff] at hnoop
  have hsettled := Slot.visit_settled (h.met ns) (hnoop.1 ns)
  simp only [fullPass, visit, hlanded, foldl_nil] at hsettled ⊢
  exact ⟨hsettled, fun o e hmem => hroutes ns o e (Slot.insertRouted_mem_of_visit (hnoop.1 ns) (by
    simpa only [visit, hlanded, foldl_nil] using hmem))⟩

omit [DecidableEq Ns] in
theorem Shard.pump_settled (h : s.Inv) (harmed : s.applyReconcileOps.Armed)
    (hroutes : ∀ ns o e, .insertRouted o e ∈ (s.slots ns).queue → s.committed ns = some e)
    (hs : s.Armed → ∀ ns, (s.slots ns).Settled (s.committed ns)) (ns : Ns) :
    (s.slots ns).drain.Settled (s.committed ns) := by
  obtain ⟨hnoop, hlast, hepoch⟩ := harmed
  have hsame : s.offsetEpoch = s.applyReconcileOps.offsetEpoch :=
    le_antisymm (offsetEpoch_le_pump h) (hepoch ▸ (h.last _ hlast).2)
  have hmounts := (Finset.sum_eq_sum_iff_of_le fun ns _ =>
    (Slot.drain_kept (h.slots ns)).2.2.2).mp hsame ns (Finset.mem_univ ns)
  exact (hs ⟨hnoop, hlast, hepoch.trans hsame.symm⟩ ns).drain (h.slots ns) hmounts.symm (hroutes ns)

/-- Along a run whose passes find no outdated route queued, a pass without work leaves none queued as
long as nothing commits, and an armed skip finds every slot settled. -/
theorem Reaches.settled (h : Reaches RoutesCurrent s) :
    (s.lastPassNoop → s.lastRevision = some s.revision → ∀ ns o e,
      .insertRouted o e ∈ (s.slots ns).queue → s.committed ns = some e) ∧
    (s.Armed → ∀ ns, (s.slots ns).Settled (s.committed ns)) := by
  induction h with
  | boot slots armed => exact ⟨by simp [armed], fun ha => by cases armed.symm.trans ha.1⟩
  | @commit s c h ih =>
    -- the bumped revision disarms the skip
    have hlast : (s.commit c).lastRevision ≠ some (s.commit c).revision := by
      intro hlast
      have hle := (h.inv.last _ (show s.lastRevision = some _ by cases c <;> exact hlast)).1
      cases c <;> simp at hle
    exact ⟨fun _ hsame => absurd hsame hlast, fun ha => absurd ha.2.1 hlast⟩
  | pump h ih =>
    refine ⟨fun _ _ ns o e => ?_, fun ha => Shard.pump_settled h.inv ha (ih.1 ha.1 ha.2.1) ih.2⟩
    simp [Shard.applyReconcileOps, (Slot.drain_kept (h.inv.slots ns)).2.2.1]
  | @pass s inp h hok ih =>
    unfold Shard.reconcileOnce
    split_ifs with hskip
    · exact ih
    · have hpass := Shard.fullPass_settled h.inv (hok (by simpa using hskip))
      exact ⟨fun hnoop hlast ns => (hpass hnoop hlast ns).2, fun ha ns => (hpass ha.1 ha.2.1 ns).1⟩

/-- While no pass finds an outdated `InsertRouted` queued: whenever `reconcile_once` skips, a
mounted namespace without a tombstone is committed at the epoch of its row or has a retry that is
not yet due, and the row of an unmounted namespace names its committed epoch. -/
theorem fast_skip_hides_no_work (h : Reaches RoutesCurrent s) (inp : PassInputs Ns)
    (hskip : s.fastSkips inp) (ns : Ns) :
    ((s.slots ns).mounted → (s.slots ns).isTombstoned = false →
      (∃ e, s.committed ns = some e ∧ (s.slots ns).shardsTableHasEpoch e) ∨
      ∃ record, (s.slots ns).delete = some record ∧ inp.now < record.nextRetryAt) ∧
    ((s.slots ns).mounted = false → ∀ location, (s.slots ns).row = some location →
      s.committed ns = some location.epoch) := by
  simp only [Shard.fastSkips, Bool.and_eq_true, decide_eq_true_eq, Bool.not_eq_true'] at hskip
  obtain ⟨⟨⟨⟨hlast, hnoop⟩, hretry⟩, -⟩, hepoch⟩ := hskip
  obtain ⟨hserved, hrouted⟩ := h.settled.2 ⟨hnoop, hlast, hepoch⟩ ns
  refine ⟨fun hm ht => (hserved hm ht).imp_right fun hrecord => ?_, hrouted⟩
  obtain ⟨record, hrecord⟩ := Option.isSome_iff_exists.mp hrecord
  refine ⟨record, hrecord, ?_⟩
  simp only [Shard.hasRetryDue, decide_eq_false_iff_not, not_exists, not_or] at hretry
  simpa [hrecord] using (hretry ns).2

/-- A partition is created, and mounted here or routed to its owner. The pass after the next skips. -/
theorem applied_partition_skips :
    ((appliedShard 0).reconcileOnce (meets true 1)).fastSkips (meets true 2) ∧
    (∃ e, (appliedShard 0).committed () = some e ∧
      (((appliedShard 0).reconcileOnce (meets true 1)).slots ()).shardsTableHasEpoch e) ∧
    (((appliedShard 1).reconcileOnce (meets true 1)).slots ()).row = some ⟨1, 1⟩ ∧
    (appliedShard 1).committed () = some 1 := by
  have hreaches (owner : Nat) (hmem : ∀ o e, .insertRouted o e ∉ ((appliedShard owner).slots ()).queue) :
      Reaches RoutesCurrent ((appliedShard owner).reconcileOnce (meets true 1)) :=
    .pass _ (.pump (.pass (meets true 0) (.commit (.create [()]) (Shard.booted_reaches owner))
      fun _ _ _ _ hmem => by cases hmem)) fun _ _ o e hin => absurd hin (hmem o e)
  have hmounted := (fast_skip_hides_no_work (hreaches 0 fun _ _ hmem => by cases hmem) (meets true 2)
    (by decide) ()).1 (by decide) (by decide)
  exact ⟨by decide, hmounted.resolve_right (by rintro ⟨_, hrecord, _⟩; cases hrecord), rfl,
    (fast_skip_hides_no_work (hreaches 1 fun _ _ hmem => by cases hmem) (meets true 2)
      (by decide) ()).2 (by decide) _ rfl⟩

/-- A peer's partition is routed, deleted before the pump runs, and a pass that finds nothing arms
the skip. The pump then writes the row of the deleted namespace, and later passes skip. -/
def routedShard : Shard Unit :=
  (((((Shard.booted 1).commit (.create [()])).reconcileOnce (meets true 0)).commit
    (.delete [()])).reconcileOnce (meets true 1)).applyReconcileOps

theorem routed_after_delete : Reaches (fun _ _ => True) routedShard ∧
    routedShard.fastSkips (meets true 2) ∧ (routedShard.slots ()).queue = [] ∧
    (routedShard.slots ()).mounted = false ∧ (routedShard.slots ()).row = some ⟨1, 1⟩ ∧
    routedShard.committed () = none :=
  ⟨.pump (.pass _ (.commit _ (.pass _ (.commit _ (Shard.booted_reaches 1)) fun _ => trivial))
    fun _ => trivial), by decide⟩

end Iggy.Reconciler
