import Iggy.Lib.Balance
import Iggy.Metadata.ConsumerGroup
import Mathlib.Data.List.GetD

/-!
# Rebalancing is even and moves as little as possible

`balanced_member_indices` gives one partition more than the share to the members that hold most,
takes partitions from members above their capacity and hands the open ones to members below it. The
loops are specified by how they change the loads (`releaseOverfull_loads`, `fillOpen_spec`). That no
even assignment keeps more is the exchange of `Iggy.Lib.Balance`.
-/

namespace Iggy

open List Lib

namespace ConsumerGroup

/-! ## Loads -/

theorem getD_modify (l : List Nat) (f : Nat → Nat) (i m : Nat) (hi : i < l.length) :
    (l.modify i f).getD m 0 = if m = i then f (l.getD m 0) else l.getD m 0 := by
  rw [getD_eq_getElem?_getD, getD_eq_getElem?_getD]
  by_cases h : m = i
  · subst h
    rw [getElem?_modify_eq, getElem?_eq_getElem hi]
    simp
  · rw [getElem?_modify_ne _ _ (Ne.symm h), if_neg h]

/-- Where a list of owners kept only some of another's. -/
def KeptOf (kept desired : List (Option Nat)) : Prop :=
  List.Forall₂ (fun k d => k = none ∨ k = d) kept desired

variable {capacities : List Nat}

theorem keptOf_releaseOverfull (desired : List (Option Nat)) (loads : List Nat) :
    KeptOf (releaseOverfull capacities desired loads).1 desired := by
  induction desired with
  | nil => exact .nil
  | cons slot rest ih =>
    cases slot with
    | none => exact .cons (.inl rfl) ih
    | some index =>
      simp only [releaseOverfull]
      split
      · exact .cons (.inl rfl) ih
      · exact .cons (.inr rfl) ih

theorem length_loads_releaseOverfull (desired : List (Option Nat)) (loads : List Nat) :
    (releaseOverfull capacities desired loads).2.length = loads.length := by
  induction desired with
  | nil => rfl
  | cons slot rest ih =>
    cases slot with
    | none => exact ih
    | some index =>
      simp only [releaseOverfull]
      split
      · rw [length_modify, ih]
      · exact ih

variable {desired : List (Option Nat)} {loads : List Nat}

/-- **Releasing.** A member gives up what is above its capacity, as far as the list reaches, and
its load falls by as much. -/
theorem releaseOverfull_loads (hloads : ∀ m, desired.count (some m) ≤ loads.getD m 0) (m : Nat) :
    (releaseOverfull capacities desired loads).1.count (some m) + loads.getD m 0 =
        desired.count (some m) + (releaseOverfull capacities desired loads).2.getD m 0 ∧
      (releaseOverfull capacities desired loads).2.getD m 0 =
        max (loads.getD m 0 - desired.count (some m)) (min (loads.getD m 0) (capacities.getD m 0)) := by
  induction desired with
  | nil =>
    simp only [releaseOverfull, count_nil, Nat.sub_zero, Nat.zero_add, true_and]
    omega
  | cons slot rest ih =>
    have hrest : ∀ m, rest.count (some m) ≤ loads.getD m 0 := fun m =>
      count_le_count_cons.trans (hloads m)
    obtain ⟨hcount, hload⟩ := ih hrest
    cases slot with
    | none =>
      simp only [releaseOverfull]
      rw [count_cons_of_ne (by simp), count_cons_of_ne (by simp)]
      exact ⟨hcount, hload⟩
    | some index =>
      have hlen := @length_loads_releaseOverfull capacities rest loads
      simp only [releaseOverfull]
      split
      case isTrue hover =>
        have hindex : index < (releaseOverfull capacities rest loads).2.length := by
          by_contra hout
          rw [getD_eq_default _ _ (not_lt.mp hout)] at hover
          omega
        rw [count_cons_of_ne (by simp), getD_modify _ _ _ _ hindex]
        by_cases hm : m = index
        · subst hm
          have hhead := hloads m
          rw [count_cons_self] at hhead ⊢
          rw [if_pos rfl]
          omega
        · rw [if_neg hm, count_cons_of_ne (by simpa using Ne.symm hm)]
          exact ⟨hcount, hload⟩
      case isFalse hfits =>
        by_cases hm : m = index
        · subst hm
          have hhead := hloads m
          dsimp only
          rw [count_cons_self] at hhead ⊢
          rw [count_cons_self]
          omega
        · rw [count_cons_of_ne (by simpa using Ne.symm hm),
            count_cons_of_ne (by simpa using Ne.symm hm)]
          exact ⟨hcount, hload⟩

theorem leastLoaded_some {index : Nat} (h : leastLoaded capacities loads = some index) :
    index < loads.length ∧ loads.getD index 0 < capacities.getD index 0 := by
  obtain ⟨⟨load, i⟩, hargmin, rfl⟩ := Option.map_eq_some_iff.mp h
  obtain ⟨hmem, hlt⟩ := mem_filter.mp (argmin_mem hargmin)
  rw [mem_zipIdx_iff_getElem?] at hmem
  obtain ⟨hi, hload⟩ := List.getElem?_eq_some_iff.mp hmem
  rw [decide_eq_true_eq] at hlt
  refine ⟨hi, ?_⟩
  rw [getD_eq_getElem _ _ hi, hload]
  exact hlt

theorem leastLoaded_none (h : leastLoaded capacities loads = none) {index : Nat}
    (hindex : index < loads.length) : capacities.getD index 0 ≤ loads.getD index 0 := by
  have hnil := argmin_eq_none.mp (Option.map_eq_none_iff.mp h)
  have hmem : (loads[index], index) ∈ loads.zipIdx :=
    mem_zipIdx_iff_getElem?.mpr (getElem?_eq_getElem hindex)
  have hnot := filter_eq_nil_iff.mp hnil _ hmem
  rw [decide_eq_true_eq, not_lt] at hnot
  rwa [getD_eq_getElem _ _ hindex]

variable {n : Nat}

/-- **Filling.** With as many open partitions as room in all, every one finds a member, and every
member ends at its capacity. -/
theorem fillOpen_spec (hlen : loads.length = n) (hdesired : ∀ m, some m ∈ desired → m < n)
    (hle : ∀ m < n, loads.getD m 0 ≤ capacities.getD m 0)
    (hsum : desired.count none + ∑ m ∈ Finset.range n, loads.getD m 0 =
      ∑ m ∈ Finset.range n, capacities.getD m 0) :
    ∃ assignment : List Nat, fillOpen capacities loads desired = assignment.map some ∧
      KeptOf desired (assignment.map some) ∧ (∀ a ∈ assignment, a < n) ∧
      ∀ m < n, assignment.count m + loads.getD m 0 =
        desired.count (some m) + capacities.getD m 0 := by
  induction desired generalizing loads with
  | nil =>
    refine ⟨[], rfl, .nil, nofun, fun m hm => ?_⟩
    -- no room is left, so every load is at its capacity
    rw [count_nil, Nat.zero_add] at hsum
    have heq := (Finset.sum_eq_sum_iff_of_le fun m hm => hle m (Finset.mem_range.mp hm)).mp hsum
    rw [count_nil, count_nil, heq m (Finset.mem_range.mpr hm)]
  | cons slot rest ih =>
    have hrest : ∀ m, some m ∈ rest → m < n := fun m hm => hdesired m (mem_cons_of_mem _ hm)
    cases slot with
    | some index =>
      rw [count_cons_of_ne (by simp)] at hsum
      obtain ⟨assignment, hfill, hkept, hlt, hcount⟩ := ih hlen hrest hle hsum
      refine ⟨index :: assignment, ?_, .cons (.inr rfl) hkept, ?_, fun m hm => ?_⟩
      · rw [fillOpen, hfill, map_cons]
      · exact forall_mem_cons.mpr ⟨hdesired index mem_cons_self, hlt⟩
      · have hm' := hcount m hm
        by_cases heq : index = m
        · subst heq
          rw [count_cons_self, count_cons_self]
          omega
        · rw [count_cons_of_ne (by simpa using heq), count_cons_of_ne (by simpa using heq)]
          exact hm'
    | none =>
      rw [count_cons_self] at hsum
      simp only [fillOpen]
      cases hleast : leastLoaded capacities loads with
      | none =>
        -- all members at capacity would leave no open partition
        have hfull : ∑ m ∈ Finset.range n, capacities.getD m 0 ≤
            ∑ m ∈ Finset.range n, loads.getD m 0 :=
          Finset.sum_le_sum fun m hm =>
            leastLoaded_none hleast (hlen ▸ Finset.mem_range.mp hm)
        omega
      | some index =>
        obtain ⟨hindex, hroom⟩ := leastLoaded_some hleast
        have hload : ∀ m, (loads.modify index (· + 1)).getD m 0 =
            loads.getD m 0 + if m = index then 1 else 0 := by
          intro m
          rw [getD_modify _ _ _ _ hindex]
          split <;> rfl
        have hle' : ∀ m < n, (loads.modify index (· + 1)).getD m 0 ≤ capacities.getD m 0 := by
          intro m hm
          rw [hload]
          by_cases heq : m = index
          · subst heq
            rw [if_pos rfl]
            exact hroom
          · rw [if_neg heq]
            exact hle m hm
        have hsum' : rest.count none +
            ∑ m ∈ Finset.range n, (loads.modify index (· + 1)).getD m 0 =
            ∑ m ∈ Finset.range n, capacities.getD m 0 := by
          have hmem : index ∈ Finset.range n := Finset.mem_range.mpr (hlen ▸ hindex)
          rw [Finset.sum_congr rfl fun m _ => hload m, Finset.sum_add_distrib,
            Finset.sum_ite_eq' , if_pos hmem]
          omega
        obtain ⟨assignment, hfill, hkept, hlt, hcount⟩ :=
          ih (by rw [length_modify, hlen]) hrest hle' hsum'
        refine ⟨index :: assignment, ?_, .cons (.inl rfl) hkept, ?_, fun m hm => ?_⟩
        · dsimp only
          rw [hfill, map_cons]
        · exact forall_mem_cons.mpr ⟨hlen ▸ hindex, hlt⟩
        · have hm' := hcount m hm
          rw [hload] at hm'
          rw [@count_cons_of_ne _ _ _ none (some m) (by simp)]
          by_cases heq : m = index
          · subst heq
            rw [count_cons_self]
            rw [if_pos rfl] at hm'
            omega
          · rw [count_cons_of_ne (Ne.symm heq)]
            rw [if_neg heq] at hm'
            exact hm'

/-! ## Counting owners -/

theorem count_none_add_sum (h : ∀ m, some m ∈ desired → m < n) :
    desired.count none + ∑ m ∈ Finset.range n, desired.count (some m) = desired.length := by
  induction desired with
  | nil => simp
  | cons slot rest ih =>
    have hrest := ih fun m hm => h m (mem_cons_of_mem _ hm)
    simp only [count_cons, Finset.sum_add_distrib, length_cons]
    cases slot with
    | none =>
      simp only [beq_self_eq_true, if_true, Option.none_beq_some, Bool.false_eq_true, if_false,
        Finset.sum_const_zero]
      omega
    | some index =>
      have hmem : index ∈ Finset.range n := Finset.mem_range.mpr (h index mem_cons_self)
      have hone : ∑ m ∈ Finset.range n, (if (some index == some m) = true then 1 else 0) = 1 := by
        simp [hmem]
      rw [hone]
      simp only [Option.some_beq_none, Bool.false_eq_true, if_false]
      omega

theorem length_le_kept_add_none {current keptSlots : List (Option Nat)} {assignment : List Nat}
    (hcurrent : KeptOf keptSlots current) (hkept : KeptOf keptSlots (assignment.map some)) :
    keptSlots.length ≤ kept current assignment + keptSlots.count none := by
  induction hcurrent generalizing assignment with
  | nil => exact Nat.zero_le _
  | @cons slot c keptSlots current hslot _ ih =>
    cases assignment with
    | nil => exact nomatch hkept
    | cons a assignment =>
      obtain ⟨hhead, htail⟩ := forall₂_cons.mp hkept
      have hrest := ih htail
      simp only [kept, zip_cons_cons, countP_cons, count_cons, length_cons] at hrest ⊢
      cases slot with
      | none =>
        simp only [beq_self_eq_true, if_true]
        omega
      | some index =>
        have hc : c = some index := (hslot.resolve_left (by simp)).symm
        have ha : some index = some a := hhead.resolve_left (by simp)
        rw [hc, ha]
        simp only [decide_true, if_true]
        omega

/-! ## The capacities -/

theorem ranked_favoured (n p : Nat) (loads : List Nat) (hn : 0 < n) :
    Favoured n p (fun m => loads.getD m 0)
      (((range n).insertionSort fun i j => loads.getD j 0 ≤ loads.getD i 0).take
        (p % n)).toFinset := by
  have hperm := perm_insertionSort (fun i j => loads.getD j 0 ≤ loads.getD i 0) (range n)
  have htotal : Std.Total fun i j : Nat => loads.getD j 0 ≤ loads.getD i 0 :=
    ⟨fun i j => le_total _ _⟩
  have htrans : IsTrans Nat fun i j => loads.getD j 0 ≤ loads.getD i 0 :=
    ⟨fun _ _ _ h h' => h'.trans h⟩
  have hsorted := pairwise_insertionSort (fun i j => loads.getD j 0 ≤ loads.getD i 0)
    (range n)
  rw [← take_append_drop (p % n) (insertionSort _ _)] at hsorted
  refine ⟨fun a ha => ?_, ?_, fun a ha b hb hnot => ?_⟩
  · exact Finset.mem_range.mpr
      (mem_range.mp (hperm.mem_iff.mp ((take_sublist _ _).subset (mem_toFinset.mp ha))))
  · rw [toFinset_card_of_nodup ((take_sublist _ _).nodup (hperm.nodup_iff.mpr nodup_range)),
      length_take, length_insertionSort, length_range, min_eq_left (Nat.mod_lt p hn).le]
  · have hmem : b ∈ (range n).insertionSort fun i j => loads.getD j 0 ≤ loads.getD i 0 :=
      hperm.mem_iff.mpr (mem_range.mpr hb)
    rw [← take_append_drop (p % n) (insertionSort _ _)] at hmem
    have hdrop := (mem_append.mp hmem).resolve_left fun h => hnot (mem_toFinset.mpr h)
    exact (pairwise_append.mp hsorted).2.2 a (mem_toFinset.mp ha) b hdrop

/-- **Releasing and filling.** Where the capacities add up to the number of partitions, every member
ends at its capacity and keeps the smaller of its load and its capacity. -/
theorem fillOpen_releaseOverfull (hlen : loads.length = n)
    (hdesired : ∀ m, some m ∈ desired → m < n)
    (hload : ∀ m, loads.getD m 0 = desired.count (some m))
    (hsum : ∑ m ∈ Finset.range n, capacities.getD m 0 = desired.length) :
    ∃ assignment : List Nat,
      fillOpen capacities (releaseOverfull capacities desired loads).2
        (releaseOverfull capacities desired loads).1 = assignment.map some ∧
      assignment.length = desired.length ∧ (∀ a ∈ assignment, a < n) ∧
      (∀ m < n, assignment.count m = capacities.getD m 0) ∧
      ∑ m ∈ Finset.range n, min (desired.count (some m)) (capacities.getD m 0) ≤
        kept desired assignment := by
  have hrelease := @releaseOverfull_loads capacities desired loads fun m => (hload m).ge
  have hkept := @keptOf_releaseOverfull capacities desired loads
  have hloads_length := @length_loads_releaseOverfull capacities desired loads
  generalize releaseOverfull capacities desired loads = released at hrelease hkept hloads_length ⊢
  obtain ⟨slots, left⟩ := released
  dsimp only at hrelease hkept hloads_length ⊢
  have hleft : ∀ m, left.getD m 0 = min (desired.count (some m)) (capacities.getD m 0) ∧
      slots.count (some m) = left.getD m 0 := by
    intro m
    have hm := hrelease m
    rw [hload m] at hm
    omega
  have hslots_lt : ∀ m, some m ∈ slots → m < n := by
    intro m hm
    refine hdesired m (count_pos_iff.mp ?_)
    have hcount := count_pos_iff.mpr hm
    have hm' := hleft m
    omega
  have hslots_sum := count_none_add_sum hslots_lt
  have hslots_length : slots.length = desired.length := hkept.length_eq
  have hopen : slots.count none + ∑ m ∈ Finset.range n, left.getD m 0 =
      ∑ m ∈ Finset.range n, capacities.getD m 0 := by
    rw [hsum, ← hslots_length, ← hslots_sum, Finset.sum_congr rfl fun m _ => (hleft m).2.symm]
  obtain ⟨assignment, hfill, hassigned, hlt, hcount⟩ :=
    fillOpen_spec (hloads_length.trans hlen) hslots_lt
      (fun m _ => by rw [(hleft m).1]; exact min_le_right _ _) hopen
  refine ⟨assignment, hfill, ?_, hlt, fun m hm => ?_, ?_⟩
  · rw [← hslots_length, hassigned.length_eq, length_map]
  · have hm' := hcount m hm
    rw [(hleft m).2] at hm'
    omega
  · have hlow := length_le_kept_add_none hkept hassigned
    rw [← hslots_sum] at hlow
    rw [Finset.sum_congr rfl fun m _ => by rw [← (hleft m).1, ← (hleft m).2]]
    omega

/-! ## Who moves -/

/-- The pending owner, else the installed one, of the partition's incarnation. -/
def currentTarget (g : ConsumerGroup) (p : TopicPartition) : Option (Nat × Nat) :=
  (g.assignments.get? p.id).bind fun a =>
    if a.incarnation ≠ p.createdRevision then none
    else ((a.pending.map PendingOwnership.owner).or a.owner).map fun o => (o.clientId, o.session)

/-- Partitions taken from their current target, or given to someone for the first time. -/
def moves (g : ConsumerGroup) (partitions : List TopicPartition) (members : List (Nat × Nat))
    (assignment : List Nat) : Nat :=
  (partitions.zip assignment).countP fun x =>
    !(g.currentTarget x.1).any fun target => members[x.2]? == some target

variable {g : ConsumerGroup} {members : List (Nat × Nat)} {partitions : List TopicPartition}

theorem currentIndex_eq (p : TopicPartition) :
    g.currentIndex members p =
      (g.currentTarget p).bind fun target => members.findIdx? (· == target) := by
  unfold currentIndex currentTarget
  cases g.assignments.get? p.id with
  | none => rfl
  | some a =>
    simp only [Option.bind_eq_bind, Option.bind_some]
    split
    · rfl
    · cases (a.pending.map PendingOwnership.owner).or a.owner <;> rfl

theorem currentIndex_lt {p : TopicPartition} {i : Nat} (h : g.currentIndex members p = some i) :
    i < members.length := by
  rw [currentIndex_eq] at h
  obtain ⟨target, -, hfind⟩ := Option.bind_eq_some_iff.mp h
  exact (findIdx?_eq_some_iff_getElem.mp hfind).1

theorem currentIndex_eq_some (hdistinct : members.Nodup) {p : TopicPartition} {i : Nat} :
    g.currentIndex members p = some i ↔
      (g.currentTarget p).any (fun target => members[i]? == some target) = true := by
  rw [currentIndex_eq]
  cases g.currentTarget p with
  | none => simp
  | some target =>
    rw [Option.bind_some, Option.any_some, beq_iff_eq]
    constructor
    · intro h
      obtain ⟨hi, hat, -⟩ := findIdx?_eq_some_iff_getElem.mp h
      rw [getElem?_eq_getElem hi, eq_of_beq hat]
    · intro h
      obtain ⟨hi, hat⟩ := List.getElem?_eq_some_iff.mp h
      refine findIdx?_eq_some_iff_getElem.mpr ⟨hi, by simp [hat], fun j hj hsame => ?_⟩
      have hij := hdistinct.getElem_inj_iff.mp ((eq_of_beq hsame).trans hat.symm)
      omega

theorem kept_add_moves (hdistinct : members.Nodup) {assignment : List Nat}
    (hlen : assignment.length = partitions.length) :
    kept (partitions.map (g.currentIndex members)) assignment +
      g.moves partitions members assignment = partitions.length := by
  have hkept : kept (partitions.map (g.currentIndex members)) assignment =
      (partitions.zip assignment).countP fun x =>
        (g.currentTarget x.1).any fun target => members[x.2]? == some target := by
    rw [kept, zip_map_left, countP_map]
    refine countP_congr fun x _ => ?_
    simp only [Function.comp_apply, Prod.map_fst, Prod.map_snd, id_eq, decide_eq_true_eq]
    exact currentIndex_eq_some hdistinct
  have hsum := length_eq_countP_add_countP (l := partitions.zip assignment)
    fun x : TopicPartition × Nat =>
      (g.currentTarget x.1).any fun target => members[x.2]? == some target
  rw [length_zip, hlen, min_self] at hsum
  rw [hkept, moves, hsum]
  congr 1
  exact countP_congr fun x _ => by simp

theorem getD_map_range (f : Nat → Nat) {m : Nat} (hm : m < n) :
    ((range n).map f).getD m 0 = f m := by
  rw [getD_eq_getElem _ _ (by simpa using hm)]
  simp

/-- **Rebalancing is even and moves as little as possible.** -/
theorem balancedMemberIndices_least_moves (g : ConsumerGroup) (partitions : List TopicPartition)
    {members : List (Nat × Nat)} (hmembers : members ≠ []) (hdistinct : members.Nodup) :
    ∃ assignment : List Nat,
      g.balancedMemberIndices partitions members = assignment.map some ∧
      assignment.length = partitions.length ∧ EvenAssignment members.length assignment ∧
      ∀ other : List Nat, other.length = partitions.length →
        EvenAssignment members.length other →
        g.moves partitions members assignment ≤ g.moves partitions members other := by
  have hpos : 0 < members.length := length_pos_iff.mpr hmembers
  unfold balancedMemberIndices
  rw [if_neg (by simpa using hmembers)]
  dsimp only
  generalize hcurrent : partitions.map (g.currentIndex members) = current
  have hlength : current.length = partitions.length := by rw [← hcurrent, length_map]
  have hcurrent_lt : ∀ m, some m ∈ current → m < members.length := by
    rw [← hcurrent]
    intro m hm
    obtain ⟨p, -, hp⟩ := mem_map.mp hm
    exact currentIndex_lt hp
  generalize hn : members.length = n at *
  generalize hloads : (range n).map (fun index => current.count (some index)) = loads
  -- a load is what the member is to hold now
  have hload : ∀ m, loads.getD m 0 = current.count (some m) := by
    intro m
    by_cases hm : m < n
    · rw [← hloads, getD_map_range _ hm]
    · have hnone : current.count (some m) = 0 :=
        count_eq_zero.mpr fun hmem => hm (hcurrent_lt m hmem)
      rw [hnone, ← hloads, getD_eq_default _ _ (by simpa using hm)]
  have hfavoured := ranked_favoured n partitions.length loads hpos
  rw [funext hload] at hfavoured
  simp only [← mem_toFinset]
  generalize (((range n).insertionSort fun i j => loads.getD j 0 ≤ loads.getD i 0).take
    (partitions.length % n)).toFinset = extra at hfavoured ⊢
  generalize hcapacities : (range n).map (fun index =>
    partitions.length / n + if index ∈ extra then 1 else 0) = capacities
  have hcapacity : ∀ m < n, capacities.getD m 0 =
      partitions.length / n + if m ∈ extra then 1 else 0 := by
    intro m hm
    rw [← hcapacities, getD_map_range _ hm]
  have hsum : ∑ m ∈ Finset.range n, capacities.getD m 0 = current.length := by
    rw [Finset.sum_congr rfl fun m hm => hcapacity m (Finset.mem_range.mp hm), hlength]
    exact hfavoured.sum_share
  obtain ⟨assignment, hfill, hassigned, hlt, hcount, hbest⟩ :=
    fillOpen_releaseOverfull (by rw [← hloads, length_map, length_range]) hcurrent_lt hload hsum
  rw [Finset.sum_congr rfl fun m hm => by rw [hcapacity m (Finset.mem_range.mp hm)]] at hbest
  have hassignment := hassigned.trans hlength
  refine ⟨assignment, hfill, hassignment, hfavoured.even hpos hassignment hlt
    fun m hm => (hcount m hm).trans (hcapacity m hm), fun other hother heven => ?_⟩
  -- the assignment keeps the sum of the smaller ones, and no other keeps more
  have hworse := hfavoured.kept_le hpos hlength hother heven
  have hmoves := @kept_add_moves g members partitions hdistinct assignment hassignment
  have hmoves' := @kept_add_moves g members partitions hdistinct other hother
  rw [hcurrent] at hmoves hmoves'
  omega

/-- Three partitions held by a member that another one joins. -/
theorem joined_member_least_moves :
    ∃ assignment : List Nat,
      ConsumerGroup.balancedMemberIndices
        { ConsumerGroup.new 1 with
          assignments := .upsert (.upsert (.upsert .empty 0 fun _ => ⟨9, some ⟨5, 6, 1⟩, none⟩) 1
            fun _ => ⟨9, some ⟨5, 6, 1⟩, none⟩) 2 fun _ => ⟨9, some ⟨5, 6, 1⟩, none⟩ }
        [⟨0, 9⟩, ⟨1, 9⟩, ⟨2, 9⟩] [(7, 8), (5, 6)] = assignment.map some ∧
      EvenAssignment 2 assignment := by
  obtain ⟨assignment, heq, -, heven, -⟩ :=
    @balancedMemberIndices_least_moves _ _ [(7, 8), (5, 6)] (by decide) (by decide)
  exact ⟨assignment, heq, heven⟩

end ConsumerGroup

end Iggy
