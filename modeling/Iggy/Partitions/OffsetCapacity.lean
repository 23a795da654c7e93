import Mathlib.Data.Finset.Card
import Mathlib.Data.Finset.Dedup
import Mathlib.Data.Finset.SDiff
import Mathlib.Data.Multiset.Filter
import Iggy.Lib.SortedMap

/-!
# Capacity of consumer offsets

Source: server_common/src/poll.rs:100-155; consumer_offset_capacity.rs:230-465.

`ConsumerOffsetCapacity` bounds the keys of one consumer kind that a partition keeps offsets for:
the durable ones, those of prepares in flight (`pending`), those that automatic commits hold by
guards (`provisional`) and those whose file could not be loaded or unlinked (`stranded`). Keys are
shared between these sets, so their number is that of a union, while admission first compares a sum
of four counts, one of which the guards keep as they are taken and dropped.

The durable table is the set of its keys, a token a reference into the allocations. A sum that
saturates at `usize::MAX` is below no limit, so counts are plain numbers. The reclaim epochs and
`map_warned` are read by no function here.
-/

namespace Iggy

open Lib Multiset Finset Function

/-- The tokens of a tracker: the cached one of each key, and the guards each has out. -/
structure Reservations where
  provisional : SortedMap Nat Nat
  active : Nat → Nat
  nextToken : Nat
  activeProvisionalKeys : Nat

namespace Reservations

variable (r : Reservations)

/-- `active_count` of the token cached for the key. -/
def activeCount (id : Nat) : Nat := (r.provisional.get? id).elim 0 r.active

/-- The keys of the tokens that have guards. -/
def activeIds : Finset Nat :=
  ((r.provisional.entries.filter fun x => 0 < r.active x.2).map Prod.fst).toFinset

/-- `AutoCommitReservationToken::acquire`. -/
def acquire (token : Nat) : Reservations :=
  { r with
    active := update r.active token (r.active token + 1)
    activeProvisionalKeys :=
      if r.active token = 0 then r.activeProvisionalKeys + 1 else r.activeProvisionalKeys }

/-- `Drop` of `AutoCommitReservation`. -/
def dropGuard (token : Nat) : Reservations :=
  { r with
    active := update r.active token (r.active token - 1)
    activeProvisionalKeys :=
      if r.active token = 1 then r.activeProvisionalKeys - 1 else r.activeProvisionalKeys }

/-- `provisional.entry(id).or_insert_with`, with the token under the key. -/
def tokenFor (id : Nat) : Nat × Reservations :=
  match r.provisional.get? id with
  | some token => (token, r)
  | none => (r.nextToken,
      { r with
        provisional := r.provisional.insert id r.nextToken
        active := update r.active r.nextToken 0
        nextToken := r.nextToken + 1 })

def retain (keep : Nat → Bool) : Reservations :=
  { r with provisional := r.provisional.retain keep }

/-- A full cache drops its idle tokens for a new key. -/
def evictFor (id limit : Nat) : Reservations :=
  if limit ≤ r.provisional.entries.length && (r.provisional.get? id).isNone then
    r.retain fun id' => 0 < r.activeCount id'
  else r

def forgetInactiveProvisional (id : Nat) : Reservations :=
  if (r.provisional.get? id).any fun token => r.active token = 0 then
    r.retain fun id' => id' ≠ id
  else r

end Reservations

/-- `ConsumerOffsetCapacityError`, without the kind, which is the tracker's own. -/
structure ConsumerOffsetCapacityError where
  occupied : Nat
  limit : Nat
  firstInEpisode : Bool
  uncertain : Bool
  deriving DecidableEq

structure ConsumerOffsetCapacity extends Reservations where
  limit : Nat
  /-- The map of counts, none of them 0, as the multiset it counts. -/
  pending : Multiset Nat
  stranded : Finset Nat
  uncertain : Bool
  durableWarned : Bool

namespace ConsumerOffsetCapacity

variable (t : ConsumerOffsetCapacity) (id : Nat) (durable : Finset Nat)

def new (limit : Nat) : ConsumerOffsetCapacity :=
  ⟨⟨.empty, fun _ => 0, 0, 0⟩, limit, 0, ∅, false, false⟩

def holds : Bool := id ∈ durable || id ∈ t.pending || 0 < t.activeCount id

def occupied : Nat :=
  durable.card + ((t.pending.toFinset ∪ t.activeIds ∪ t.stranded) \ durable).card

def check : Except ConsumerOffsetCapacityError Unit × ConsumerOffsetCapacity :=
  if t.holds id durable || id ∈ t.stranded then (.ok (), t)
  else if !t.uncertain && durable.card + t.pending.toFinset.card + t.stranded.card +
      t.activeProvisionalKeys < t.limit then
    (.ok (), { t with durableWarned := false })
  else
    -- A full durable table cannot gain room by pruning provisional keys.
    let occupied := if t.limit ≤ durable.card then durable.card else t.occupied durable
    if t.uncertain || t.limit ≤ occupied then
      (.error ⟨occupied, t.limit, !t.durableWarned, t.uncertain⟩, { t with durableWarned := true })
    else (.ok (), { t with durableWarned := false })

def tryReserve : Except ConsumerOffsetCapacityError Unit × ConsumerOffsetCapacity :=
  match t.check id durable with
  | (.ok _, t) => (.ok (), { t with pending := id ::ₘ t.pending })
  | (.error error, t) => (.error error, t)

/-- The guard is the token it counts for. -/
def reserveProvisional : Except ConsumerOffsetCapacityError Nat × ConsumerOffsetCapacity :=
  match t.check id durable with
  | (.error error, t) => (.error error, t)
  | (.ok _, t) =>
    let (token, reservations) := (t.evictFor id t.limit).tokenFor id
    (.ok token, { t with toReservations := reservations.acquire token })

def setPendingCount (count : Nat) : ConsumerOffsetCapacity :=
  { t with pending := .replicate count id + t.pending.filter (· ≠ id) }

def rearmIfBelowLimit : ConsumerOffsetCapacity :=
  if !t.durableWarned || t.uncertain || t.limit ≤ durable.card then t
  else if t.occupied durable < t.limit then { t with durableWarned := false }
  else t

def rebuild (pendingIds : List Nat) : ConsumerOffsetCapacity :=
  rearmIfBelowLimit { t with pending := pendingIds, uncertain := false } durable

def markUncertain : ConsumerOffsetCapacity := { t with pending := 0, uncertain := true }

def recordStranded : ConsumerOffsetCapacity :=
  { t with stranded := insert id t.stranded }

def clearStranded : ConsumerOffsetCapacity :=
  { t with stranded := t.stranded.erase id }

end ConsumerOffsetCapacity

/-! ## The counter of active keys -/

namespace Reservations

variable {r : Reservations} {guards : Multiset Nat} {id token : Nat}

/-- The guards out are `guards`, each of the token cached for its own key, and the counter is the
number of tokens that have guards. -/
structure Counted (r : Reservations) (guards : Multiset Nat) : Prop where
  fresh : ∀ {id token}, r.provisional.get? id = some token → token < r.nextToken
  inj : ∀ {id id' token}, r.provisional.get? id = some token →
    r.provisional.get? id' = some token → id = id'
  active : r.active = guards.count
  cached : ∀ token ∈ guards, ∃ id, r.provisional.get? id = some token
  keys : r.activeProvisionalKeys = guards.toFinset.card

theorem activeCount_pos : 0 < r.activeCount id ↔
    ∃ token, r.provisional.get? id = some token ∧ 0 < r.active token := by
  rw [activeCount]
  cases r.provisional.get? id <;> simp

theorem mem_activeIds : id ∈ r.activeIds ↔ 0 < r.activeCount id := by
  simp [activeIds, activeCount_pos, SortedMap.mem_entries]

theorem Counted.mem_activeIds (h : r.Counted guards) :
    id ∈ r.activeIds ↔ ∃ token ∈ guards, r.provisional.get? id = some token := by
  simp only [Reservations.mem_activeIds, activeCount_pos, h.active, count_pos]
  exact exists_congr fun _ => and_comm

theorem Counted.card_activeIds_le (h : r.Counted guards) :
    r.activeIds.card ≤ r.activeProvisionalKeys := by
  rw [h.keys]
  refine card_le_card_of_injOn (fun id => (r.provisional.get? id).getD 0) (fun id hid => ?_)
    fun id hid id' hid' heq => ?_
  · obtain ⟨token, hguard, hget⟩ := h.mem_activeIds.mp hid
    simpa [hget] using hguard
  · obtain ⟨token, -, hget⟩ := h.mem_activeIds.mp hid
    obtain ⟨token', -, hget'⟩ := h.mem_activeIds.mp hid'
    obtain rfl : token = token' := by simpa [hget, hget'] using heq
    exact h.inj hget hget'

theorem get?_retain {keep : Nat → Bool} : (r.retain keep).provisional.get? id = some token ↔
    keep id ∧ r.provisional.get? id = some token := by
  simp [retain, SortedMap.get?_retain]

theorem Counted.retain (h : r.Counted guards) {keep : Nat → Bool}
    (hkeep : ∀ id, 0 < r.activeCount id → keep id) :
    (r.retain keep).Counted guards ∧ (r.retain keep).activeIds ⊆ r.activeIds := by
  refine ⟨⟨fun hid => h.fresh (get?_retain.mp hid).2, fun hid hid' =>
    h.inj (get?_retain.mp hid).2 (get?_retain.mp hid').2, h.active, fun token hguard => ?_, h.keys⟩,
    fun id hid => ?_⟩
  · obtain ⟨id, hid⟩ := h.cached token hguard
    refine ⟨id, get?_retain.mpr ⟨hkeep id (activeCount_pos.mpr ⟨token, hid, ?_⟩), hid⟩⟩
    rwa [h.active, count_pos]
  · simp only [Reservations.mem_activeIds, activeCount_pos, get?_retain] at hid ⊢
    obtain ⟨token, ⟨-, hget⟩, hactive⟩ := hid
    exact ⟨token, hget, hactive⟩

theorem Counted.evictFor (h : r.Counted guards) (id limit : Nat) :
    (r.evictFor id limit).Counted guards ∧ (r.evictFor id limit).activeIds ⊆ r.activeIds := by
  rw [Reservations.evictFor]
  split
  · exact h.retain fun _ hactive => decide_eq_true hactive
  · exact ⟨h, subset_rfl⟩

theorem Counted.forgetInactiveProvisional (h : r.Counted guards) (id : Nat) :
    (r.forgetInactiveProvisional id).Counted guards ∧
      (r.forgetInactiveProvisional id).activeIds ⊆ r.activeIds := by
  rw [Reservations.forgetInactiveProvisional]
  split
  case isTrue hinactive =>
    refine h.retain fun id' hactive => decide_eq_true ?_
    rintro rfl
    obtain ⟨token, hid, hpos⟩ := activeCount_pos.mp hactive
    simp [hid, hpos.ne'] at hinactive
  case isFalse => exact ⟨h, subset_rfl⟩

theorem get?_tokenFor {id' : Nat} : (r.tokenFor id).2.provisional.get? id' =
    if id' = id then some (r.tokenFor id).1 else r.provisional.get? id' := by
  rw [tokenFor]
  cases hid : r.provisional.get? id with
  | some token => split <;> simp_all
  | none => exact SortedMap.get?_insert ..

theorem Counted.tokenFor (h : r.Counted guards) (id : Nat) : (r.tokenFor id).2.Counted guards := by
  have hget := @get?_tokenFor r id
  rw [Reservations.tokenFor] at hget ⊢
  cases hid : r.provisional.get? id with
  | some token => exact h
  | none =>
    simp only [hid] at hget
    have hnext : guards.count r.nextToken = 0 := count_eq_zero.mpr fun hguard => by
      obtain ⟨id', hid'⟩ := h.cached _ hguard
      exact absurd (h.fresh hid') (lt_irrefl _)
    refine ⟨fun {id' token} hid' => ?_, fun {id₁ id₂ token} h₁ h₂ => ?_, ?_, fun token hguard => ?_,
      h.keys⟩
    · rw [hget] at hid'
      split at hid'
      · cases hid'
        exact Nat.lt_succ_self _
      · exact (h.fresh hid').trans (Nat.lt_succ_self _)
    · rw [hget] at h₁ h₂
      have hne {id'} (hid' : r.provisional.get? id' = some token) : token ≠ r.nextToken :=
        (h.fresh hid').ne
      split at h₁ <;> split at h₂ <;> simp_all
      exact h.inj h₁ h₂
    · show update r.active r.nextToken 0 = guards.count
      rw [h.active, ← hnext, update_eq_self]
    · obtain ⟨id', hid'⟩ := h.cached token hguard
      have hne : id' ≠ id := by
        rintro rfl
        simp [hid] at hid'
      exact ⟨id', by rwa [hget, if_neg hne]⟩

theorem Counted.acquire (h : r.Counted guards) (hid : r.provisional.get? id = some token) :
    (r.acquire token).Counted (token ::ₘ guards) := by
  refine ⟨h.fresh, h.inj, ?_, forall_mem_cons.mpr ⟨⟨id, hid⟩, h.cached⟩, ?_⟩
  · funext token'
    simp only [Reservations.acquire, update_apply, count_cons, h.active]
    split <;> simp_all
  · simp only [Reservations.acquire, h.active, toFinset_cons, count_eq_zero]
    split
    case isTrue hnew => rw [card_insert_of_notMem (by simpa using hnew), h.keys]
    case isFalse hheld => rw [insert_eq_of_mem (by simpa using hheld), h.keys]

/-- Only its own key becomes active. -/
theorem Counted.reserve (h : r.Counted guards) (id limit : Nat) :
    let (token, r') := (r.evictFor id limit).tokenFor id
    (r'.acquire token).Counted (token ::ₘ guards) ∧
      ∀ id' ∈ (r'.acquire token).activeIds, id' = id ∨ id' ∈ r.activeIds := by
  obtain ⟨hkept, hsub⟩ := h.evictFor id limit
  have hid := @get?_tokenFor (r.evictFor id limit) id id
  rw [if_pos rfl] at hid
  have hcounted := (hkept.tokenFor id).acquire hid
  refine ⟨hcounted, fun id' hid' => or_iff_not_imp_left.mpr fun hne => ?_⟩
  obtain ⟨token, hguard, hget⟩ := hcounted.mem_activeIds.mp hid'
  obtain rfl | hguard := mem_cons.mp hguard
  · exact absurd (hcounted.inj hget hid) hne
  · exact hsub (hkept.mem_activeIds.mpr
      ⟨token, hguard, (get?_tokenFor.trans (if_neg hne)).symm.trans hget⟩)

theorem Counted.dropGuard (h : r.Counted guards) (hguard : token ∈ guards) :
    (r.dropGuard token).Counted (guards.erase token) ∧
      (r.dropGuard token).activeIds ⊆ r.activeIds := by
  have hcounted : (r.dropGuard token).Counted (guards.erase token) := by
    refine ⟨h.fresh, h.inj, ?_, fun _ hmem => h.cached _ (mem_of_mem_erase hmem), ?_⟩
    · funext token'
      simp only [Reservations.dropGuard, update_apply, h.active]
      split <;> simp_all
    · obtain ⟨rest, rfl⟩ := exists_cons_of_mem hguard
      have hkeys := h.keys
      rw [toFinset_cons] at hkeys
      simp only [Reservations.dropGuard, h.active, count_cons_self,
        erase_cons_head, Nat.add_eq_right, count_eq_zero]
      split
      case isTrue hlast =>
        rw [hkeys, card_insert_of_notMem (by simpa using hlast), Nat.add_sub_cancel]
      case isFalse hheld => rw [hkeys, insert_eq_of_mem (by simpa using hheld)]
  refine ⟨hcounted, fun id hid => ?_⟩
  obtain ⟨token', hmem, hget⟩ := hcounted.mem_activeIds.mp hid
  exact h.mem_activeIds.mpr ⟨token', mem_of_mem_erase hmem, hget⟩

end Reservations

/-! ## Admission -/

namespace ConsumerOffsetCapacity

variable {t : ConsumerOffsetCapacity} {durable : Finset Nat} {guards : Multiset Nat} {id : Nat}

/-- The keys that are durable, pending, actively reserved or stranded. -/
def occupiedKeys (t : ConsumerOffsetCapacity) (durable : Finset Nat) : Finset Nat :=
  durable ∪ (t.pending.toFinset ∪ t.activeIds ∪ t.stranded)

theorem occupied_eq : t.occupied durable = (t.occupiedKeys durable).card := by
  rw [occupied, occupiedKeys, Nat.add_comm, Finset.card_sdiff_add_card, Finset.union_comm]

theorem mem_occupiedKeys : id ∈ t.occupiedKeys durable ↔ t.holds id durable ∨ id ∈ t.stranded := by
  simp [occupiedKeys, holds, Reservations.mem_activeIds, or_assoc]

/-- The sum counts a shared key twice, so it may refuse the fast path and never admits too much. -/
theorem occupied_le_sum (h : t.Counted guards) : t.occupied durable ≤
    durable.card + t.pending.toFinset.card + t.stranded.card + t.activeProvisionalKeys := by
  rw [occupied_eq, occupiedKeys]
  have hactive := h.card_activeIds_le
  have h₁ := card_union_le durable (t.pending.toFinset ∪ t.activeIds ∪ t.stranded)
  have h₂ := card_union_le (t.pending.toFinset ∪ t.activeIds) t.stranded
  have h₃ := card_union_le t.pending.toFinset t.activeIds
  omega

theorem check_eq_ok_iff (h : t.Counted guards) : (t.check id durable).1 = .ok () ↔
    t.holds id durable ∨ id ∈ t.stranded ∨
      t.uncertain = false ∧ t.occupied durable < t.limit := by
  have hsum := @occupied_le_sum t durable guards h
  have hfull : t.limit ≤ (if t.limit ≤ durable.card then durable.card else t.occupied durable) ↔
      t.limit ≤ t.occupied durable := by
    have hdurable : durable.card ≤ t.occupied durable := Nat.le_add_right ..
    split <;> omega
  rw [← or_assoc, check]
  simp only [Bool.or_eq_true, decide_eq_true_eq, hfull]
  split
  case isTrue hheld => simp [hheld]
  case isFalse hheld =>
    rw [or_iff_right hheld]
    cases t.uncertain
    · simp only [Bool.not_false, Bool.true_and, decide_eq_true_eq, true_and]
      split
      · simp
        omega
      · split <;> simp_all
    · simp

theorem check_snd : ∃ warned, (t.check id durable).2 = { t with durableWarned := warned } := by
  simp only [check]
  generalize (if t.limit ≤ durable.card then durable.card else t.occupied durable) = occupied
  split_ifs
  exacts [⟨t.durableWarned, rfl⟩, ⟨_, rfl⟩, ⟨_, rfl⟩, ⟨_, rfl⟩]

theorem rearm_eq :
    ∃ warned, t.rearmIfBelowLimit durable = { t with durableWarned := warned } := by
  rw [rearmIfBelowLimit]
  split_ifs
  exacts [⟨t.durableWarned, rfl⟩, ⟨_, rfl⟩, ⟨t.durableWarned, rfl⟩]

theorem tryReserve_snd : ∃ warned, (t.tryReserve id durable).2 =
    { t with
      durableWarned := warned
      pending := if (t.check id durable).1 = .ok () then id ::ₘ t.pending else t.pending } := by
  obtain ⟨warned, hwarned⟩ := @check_snd t durable id
  refine ⟨warned, ?_⟩
  rw [tryReserve]
  generalize t.check id durable = answer at hwarned ⊢
  obtain ⟨result, t'⟩ := answer
  obtain rfl : t' = _ := hwarned
  cases result <;> simp

theorem reserveProvisional_snd (h : t.Counted guards) :
    (∃ error warned, (t.check id durable).1 = .error error ∧
      t.reserveProvisional id durable = (.error error, { t with durableWarned := warned })) ∨
    ∃ token warned r, (t.check id durable).1 = .ok () ∧
      t.reserveProvisional id durable =
        (.ok token, { t with durableWarned := warned, toReservations := r }) ∧
      r.Counted (token ::ₘ guards) ∧ ∀ id' ∈ r.activeIds, id' = id ∨ id' ∈ t.activeIds := by
  obtain ⟨warned, hwarned⟩ := @check_snd t durable id
  rw [reserveProvisional]
  generalize t.check id durable = answer at hwarned ⊢
  obtain ⟨result, t'⟩ := answer
  obtain rfl : t' = _ := hwarned
  cases result with
  | error error => exact .inl ⟨error, warned, rfl, rfl⟩
  | ok => exact .inr ⟨_, warned, _, rfl, rfl, h.reserve id t.limit⟩

/-! ## Runs -/

/-- A tracker with its durable table and the guards that requests hold. -/
structure Owner where
  durable : Finset Nat
  tracker : ConsumerOffsetCapacity
  guards : Multiset Nat
  /-- History: the pending keys that `mark_uncertain` dropped since the last `rebuild`. -/
  forfeited : Finset Nat

inductive Op where
  | check (id : Nat)
  | tryReserve (id : Nat)
  | reserveProvisional (id : Nat)
  | dropGuard (token : Nat)
  | setPendingCount (id count : Nat)
  | rebuild (pendingIds : List Nat)
  | markUncertain
  | recordStranded (id : Nat)
  | clearStranded (id : Nat)
  | rearmIfBelowLimit
  | forgetInactiveProvisional (id : Nat)
  | setLimit (limit : Nat)
  | recordDurable (id : Nat)
  | removeDurable (id : Nat)
  | clearDurable

namespace Owner

def new (limit : Nat) (durable : Finset Nat) : Owner := ⟨durable, .new limit, 0, ∅⟩

def step (s : Owner) : Op → Owner
  | .check id => { s with tracker := (s.tracker.check id s.durable).2 }
  | .tryReserve id => { s with tracker := (s.tracker.tryReserve id s.durable).2 }
  | .reserveProvisional id =>
    match s.tracker.reserveProvisional id s.durable with
    | (.ok token, tracker) => { s with tracker, guards := token ::ₘ s.guards }
    | (.error _, tracker) => { s with tracker }
  | .dropGuard token =>
    if token ∈ s.guards then
      { s with
        tracker.toReservations := s.tracker.dropGuard token
        guards := s.guards.erase token }
    else s
  | .setPendingCount id count => { s with tracker := s.tracker.setPendingCount id count }
  | .rebuild pendingIds =>
    { s with tracker := s.tracker.rebuild s.durable pendingIds, forfeited := ∅ }
  | .markUncertain =>
    { s with
      tracker := s.tracker.markUncertain
      forfeited := s.forfeited ∪ s.tracker.pending.toFinset }
  | .recordStranded id => { s with tracker := s.tracker.recordStranded id }
  | .clearStranded id => { s with tracker := s.tracker.clearStranded id }
  | .rearmIfBelowLimit => { s with tracker := s.tracker.rearmIfBelowLimit s.durable }
  | .forgetInactiveProvisional id =>
    { s with tracker.toReservations := s.tracker.forgetInactiveProvisional id }
  | .setLimit limit => { s with tracker.limit := limit }
  | .recordDurable id => { s with durable := insert id s.durable }
  | .removeDurable id => { s with durable := s.durable.erase id }
  | .clearDurable => { s with durable := ∅ }

def run (s : Owner) (ops : List Op) : Owner := ops.foldl step s

/-- The keys that have a place: the occupied ones and those forfeited until the next `rebuild`. -/
def claimed (s : Owner) : Finset Nat := s.tracker.occupiedKeys s.durable ∪ s.forfeited

/-- Only a reserved key becomes durable, pending or stranded, and the limit stays at or above the
claimed keys. -/
def Reserved (s : Owner) : Op → Prop
  | .setPendingCount id count => count = 0 ∨ id ∈ s.claimed
  | .rebuild pendingIds => ∀ id ∈ pendingIds, id ∈ s.claimed
  | .recordStranded id | .recordDurable id => id ∈ s.claimed
  | .setLimit limit => s.claimed.card ≤ limit
  | _ => True

instance (s : Owner) (op : Op) : Decidable (s.Reserved op) := by
  cases op <;> unfold Reserved <;> infer_instance

/-- Every operation of the run is `Reserved` where it happens. -/
def ReservedRun (s : Owner) : List Op → Prop
  | [] => True
  | op :: ops => s.Reserved op ∧ (s.step op).ReservedRun ops

variable {s : Owner} {op : Op}

structure Exact (s : Owner) : Prop where
  counted : s.tracker.Counted s.guards
  certain : s.tracker.uncertain = false → s.forfeited = ∅

def Within (s : Owner) : Prop := s.claimed.card ≤ s.tracker.limit

theorem mem_claimed {id : Nat} : id ∈ s.claimed ↔ id ∈ s.durable ∨ id ∈ s.tracker.pending ∨
    id ∈ s.tracker.activeIds ∨ id ∈ s.tracker.stranded ∨ id ∈ s.forfeited := by
  simp [claimed, occupiedKeys]

theorem Within.of_subset {s' : Owner} (h : s.Within) (hlimit : s'.tracker.limit = s.tracker.limit)
    (hsub : ∀ id ∈ s'.claimed, id ∈ s.claimed) : s'.Within :=
  (card_le_card hsub).trans (hlimit ▸ h)

theorem Within.of_admitted {s' : Owner} {id : Nat} (h : s.Within) (hexact : s.Exact)
    (hok : (s.tracker.check id s.durable).1 = .ok ())
    (hlimit : s'.tracker.limit = s.tracker.limit)
    (hsub : ∀ id' ∈ s'.claimed, id' = id ∨ id' ∈ s.claimed) : s'.Within := by
  rw [check_eq_ok_iff hexact.counted, ← or_assoc, ← mem_occupiedKeys] at hok
  obtain hheld | ⟨hcertain, hroom⟩ := hok
  · refine h.of_subset hlimit fun id' hid' => ?_
    obtain rfl | hid' := hsub id' hid'
    · exact mem_union_left _ hheld
    · exact hid'
  · have hinsert := (card_le_card fun id' hid' => mem_insert.mpr (hsub id' hid')).trans
      (card_insert_le id s.claimed)
    have hclaimed : s.claimed = s.tracker.occupiedKeys s.durable := by
      rw [claimed, hexact.certain hcertain, union_empty]
    rw [occupied_eq, ← hclaimed] at hroom
    rw [Within, hlimit]
    exact hinsert.trans hroom

theorem Exact.step (h : s.Exact) (op : Op) :
    (s.step op).Exact ∧ (s.Reserved op → s.Within → (s.step op).Within) := by
  cases op with
  | check id =>
    obtain ⟨warned, hwarned⟩ := @check_snd s.tracker s.durable id
    simp only [Owner.step, hwarned]
    exact ⟨⟨h.counted, h.certain⟩, fun _ hle => hle⟩
  | rearmIfBelowLimit =>
    obtain ⟨warned, hwarned⟩ := @rearm_eq s.tracker s.durable
    simp only [Owner.step, hwarned]
    exact ⟨⟨h.counted, h.certain⟩, fun _ hle => hle⟩
  | tryReserve id =>
    obtain ⟨warned, hwarned⟩ := @tryReserve_snd s.tracker s.durable id
    simp only [Owner.step, hwarned]
    refine ⟨⟨h.counted, h.certain⟩, fun _ hle => ?_⟩
    split
    case isTrue hok =>
      refine hle.of_admitted h hok rfl fun id' hid' => ?_
      simp only [mem_claimed, Multiset.mem_cons] at hid' ⊢
      tauto
    case isFalse => exact hle
  | reserveProvisional id =>
    obtain ⟨error, warned, -, heq⟩ | ⟨token, warned, r, hok, heq, hcounted, hids⟩ :=
      @reserveProvisional_snd _ s.durable _ id h.counted <;>
      simp only [Owner.step, heq]
    · exact ⟨⟨h.counted, h.certain⟩, fun _ hle => hle⟩
    · refine ⟨⟨hcounted, h.certain⟩, fun _ hle => hle.of_admitted h hok rfl fun id' hid' => ?_⟩
      have hactive := hids id'
      simp only [mem_claimed] at hid' ⊢
      tauto
  | rebuild pendingIds =>
    obtain ⟨warned, hwarned⟩ :=
      @rearm_eq { s.tracker with pending := pendingIds, uncertain := false } s.durable
    simp only [Owner.step, rebuild, hwarned]
    refine ⟨⟨h.counted, fun _ => rfl⟩, fun hop hle => hle.of_subset rfl fun id hid => ?_⟩
    have hpending := hop id
    simp only [mem_claimed, Multiset.mem_coe] at hid hpending ⊢
    grind
  | dropGuard token =>
    rw [Owner.step]
    split
    case isTrue hguard =>
      obtain ⟨hcounted, hsub⟩ := h.counted.dropGuard hguard
      refine ⟨⟨hcounted, h.certain⟩, fun _ hle => hle.of_subset rfl fun id hid => ?_⟩
      simp only [mem_claimed] at hid ⊢
      grind
    case isFalse => exact ⟨h, fun _ hle => hle⟩
  | forgetInactiveProvisional id =>
    obtain ⟨hcounted, hids⟩ := h.counted.forgetInactiveProvisional id
    refine ⟨⟨hcounted, h.certain⟩, fun _ hle => hle.of_subset rfl fun id' hid' => ?_⟩
    simp only [Owner.step, mem_claimed] at hid' ⊢
    grind
  | markUncertain =>
    refine ⟨⟨h.counted, fun hcertain => nomatch hcertain⟩,
      fun _ hle => hle.of_subset rfl fun id hid => ?_⟩
    simp only [Owner.step, markUncertain, mem_claimed] at hid ⊢
    grind
  | setLimit limit => exact ⟨⟨h.counted, h.certain⟩, fun hop _ => hop⟩
  | setPendingCount | recordStranded | clearStranded | recordDurable | removeDurable
    | clearDurable =>
    refine ⟨⟨h.counted, h.certain⟩, fun hop hle => hle.of_subset rfl fun id hid => ?_⟩
    simp only [Owner.step, Reserved, mem_claimed, setPendingCount, recordStranded,
      clearStranded, mem_add, mem_replicate, Multiset.mem_filter] at hop hid ⊢
    grind

theorem Exact.run (h : s.Exact) (ops : List Op) :
    (s.run ops).Exact ∧ (s.ReservedRun ops → s.Within → (s.run ops).Within) := by
  induction ops generalizing s with
  | nil => exact ⟨h, fun _ hle => hle⟩
  | cons op ops ih =>
    obtain ⟨hstep, hle⟩ := h.step op
    exact ⟨(ih hstep).1, fun hops hwithin => (ih hstep).2 hops.2 (hle hops.1 hwithin)⟩

theorem exact_new (limit : Nat) (durable : Finset Nat) : (new limit durable).Exact where
  counted := ⟨nofun, nofun, by funext; simp [new, ConsumerOffsetCapacity.new], nofun, rfl⟩
  certain _ := rfl

/-- **Admission counts distinct keys.** In every state that operations lead to, admission is decided
by the number of distinct keys, that of every guard among them; and as long as only reserved keys
become durable, pending or stranded and the limit stays at or above the keys that have a place, that
number is within the limit. -/
theorem capacity_counts_distinct_keys (limit : Nat) (durable : Finset Nat) (ops : List Op) :
    let s := (new limit durable).run ops
    (∀ id, (s.tracker.check id s.durable).1 = .ok () ↔
      s.tracker.holds id s.durable ∨ id ∈ s.tracker.stranded ∨
        s.tracker.uncertain = false ∧ s.tracker.occupied s.durable < s.tracker.limit) ∧
    s.tracker.occupied s.durable = (s.durable ∪
      (s.tracker.pending.toFinset ∪ s.tracker.activeIds ∪ s.tracker.stranded)).card ∧
    (∀ token ∈ s.guards, ∃ id ∈ s.tracker.activeIds,
      s.tracker.provisional.get? id = some token) ∧
    (durable.card ≤ limit → (new limit durable).ReservedRun ops →
      s.tracker.occupied s.durable ≤ s.tracker.limit) := by
  obtain ⟨hexact, hwithin⟩ := (exact_new limit durable).run ops
  refine ⟨fun id => check_eq_ok_iff hexact.counted, occupied_eq, fun token hguard => ?_,
    fun hdurable hops => ?_⟩
  · obtain ⟨id, hid⟩ := hexact.counted.cached token hguard
    exact ⟨id, hexact.counted.mem_activeIds.mpr ⟨token, hguard, hid⟩, hid⟩
  have hclaimed : (new limit durable).claimed = durable := by
    ext
    simp [mem_claimed, new, ConsumerOffsetCapacity.new, Reservations.mem_activeIds,
      Reservations.activeCount]
  rw [occupied_eq]
  exact (Finset.card_le_card Finset.subset_union_left).trans
    (hwithin hops (by rwa [Within, hclaimed]))

/-- Two requests for one key, one of which stores the offset before both drop their guards. -/
theorem shared_key_within_limit :
    let ops : List Op := [.reserveProvisional 7, .tryReserve 7, .reserveProvisional 7,
      .dropGuard 0, .recordDurable 7, .setPendingCount 7 0, .markUncertain, .rebuild [7],
      .dropGuard 0]
    let s := (new 1 ∅).run ops
    (new 1 ∅).ReservedRun ops ∧ s.tracker.occupied s.durable ≤ s.tracker.limit :=
  have h : (new 1 ∅).ReservedRun _ := by
    simp only [ReservedRun]
    decide
  ⟨h, (capacity_counts_distinct_keys 1 ∅ _).2.2.2 (by decide) h⟩

/-- A stranded key needs no reservation, and a limit lowered while the tracker is uncertain passes
the keys that the next `rebuild` brings back. -/
theorem unreserved_keys_pass_limit :
    (let s := (new 1 ∅).run [.tryReserve 1, .recordStranded 2]
     s.tracker.limit < s.tracker.occupied s.durable) ∧
    (let ops : List Op := [.tryReserve 1, .tryReserve 2, .markUncertain]
     let lowered := (new 2 ∅).run (ops ++ [.setLimit 1])
     let s := (new 2 ∅).run (ops ++ [.setLimit 1, .rebuild [1, 2]])
     lowered.tracker.occupied lowered.durable ≤ 1 ∧
       s.tracker.limit < s.tracker.occupied s.durable) := by
  decide

end Owner

end ConsumerOffsetCapacity

end Iggy
