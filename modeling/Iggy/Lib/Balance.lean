import Mathlib.Algebra.BigOperators.Group.Finset.Basic
import Mathlib.Algebra.BigOperators.Group.Finset.Piecewise
import Mathlib.Algebra.Group.Action.Defs
import Mathlib.Algebra.Order.BigOperators.Group.Finset
import Mathlib.Data.List.Count

/-!
# Even assignments with few moves

Items stand in a list; each has a current owner among `n`, or none. An assignment is even when every
owner gets the floor or the ceiling of the average. `kept_le_sum_min` bounds what any assignment
keeps by the smaller of what an owner has and what it is to get, and `sum_min_le` says that this
bound is largest when the owners that get one more are those that have most (`Favoured`).
-/

namespace Iggy.Lib

open List

def kept (current : List (Option Nat)) (assignment : List Nat) : Nat :=
  (current.zip assignment).countP fun x => x.1 = some x.2

/-- Every item goes to one of `n` owners, each of which gets the floor or the ceiling of the
average. -/
structure EvenAssignment (n : Nat) (assignment : List Nat) : Prop where
  lt : ∀ a ∈ assignment, a < n
  even : ∀ m < n, assignment.count m = assignment.length / n ∨
    assignment.count m = (assignment.length + n - 1) / n

section Counting

variable {n : Nat} {assignment : List Nat} {current : List (Option Nat)}

theorem sum_count (h : ∀ a ∈ assignment, a < n) :
    ∑ m ∈ Finset.range n, assignment.count m = assignment.length := by
  induction assignment with
  | nil => simp
  | cons a rest ih =>
    have hrest := ih fun x hx => h x (mem_cons_of_mem _ hx)
    have ha : a ∈ Finset.range n := Finset.mem_range.mpr (h a mem_cons_self)
    simp only [count_cons, Finset.sum_add_distrib, hrest, length_cons]
    simp [ha]

theorem kept_le_sum_min (hlen : current.length = assignment.length)
    (h : ∀ a ∈ assignment, a < n) :
    kept current assignment ≤
      ∑ m ∈ Finset.range n, min (current.count (some m)) (assignment.count m) := by
  have hsplit : kept current assignment =
      ∑ m ∈ Finset.range n, (current.zip assignment).countP fun x => x.1 = some m ∧ x.2 = m := by
    clear hlen
    induction assignment generalizing current with
    | nil => simp [kept]
    | cons a rest ih =>
      cases current with
      | nil => simp [kept]
      | cons c current =>
        have hrest := @ih current fun x hx => h x (mem_cons_of_mem _ hx)
        have ha : a ∈ Finset.range n := Finset.mem_range.mpr (h a mem_cons_self)
        simp only [kept] at hrest
        simp only [kept, zip_cons_cons, countP_cons, hrest, Finset.sum_add_distrib]
        congr 1
        by_cases hc : c = some a
        · subst hc
          simp [ha]
        · have hnone : ∀ m ∈ Finset.range n,
              (if (decide (c = some m ∧ a = m)) = true then 1 else 0) = 0 := by
            intro m _
            rw [if_neg]
            simp only [decide_eq_true_eq, not_and]
            rintro hcm rfl
            exact hc hcm
          rw [Finset.sum_eq_zero hnone]
          simp [hc]
  rw [hsplit]
  refine Finset.sum_le_sum fun m _ => le_min ?_ ?_
  · calc (current.zip assignment).countP (fun x => x.1 = some m ∧ x.2 = m)
        ≤ (current.zip assignment).countP (fun x => x.1 = some m) :=
          countP_mono_left fun x _ hx => by simp_all
      _ = ((current.zip assignment).map Prod.fst).count (some m) := by
          rw [List.count, countP_map]
          exact countP_congr fun x _ => by simp
      _ = current.count (some m) := by rw [map_fst_zip hlen.le]
  · calc (current.zip assignment).countP (fun x => x.1 = some m ∧ x.2 = m)
        ≤ (current.zip assignment).countP (fun x => x.2 = m) :=
          countP_mono_left fun x _ hx => by simp_all
      _ = ((current.zip assignment).map Prod.snd).count m := by
          rw [List.count, countP_map]
          exact countP_congr fun x _ => by simp
      _ = assignment.count m := by rw [map_snd_zip hlen.ge]

end Counting

section Exchange

variable {n q r : Nat} {load : Nat → Nat}

theorem sum_min_extra (extra : Finset Nat) (hextra : extra ⊆ Finset.range n) :
    ∑ m ∈ Finset.range n, min (load m) (q + if m ∈ extra then 1 else 0) =
      ∑ m ∈ Finset.range n, min (load m) q + (extra.filter fun m => q < load m).card := by
  have hterm : ∀ m ∈ Finset.range n, min (load m) (q + if m ∈ extra then 1 else 0) =
      min (load m) q + if m ∈ extra.filter fun m => q < load m then 1 else 0 := by
    intro m _
    by_cases hm : m ∈ extra
    · by_cases hload : q < load m
      · simp only [hm, hload, Finset.mem_filter, if_true, and_self]
        omega
      · simp only [hm, hload, Finset.mem_filter, if_true, and_false, if_false]
        omega
    · simp [hm]
  rw [Finset.sum_congr rfl hterm, Finset.sum_add_distrib, Finset.sum_ite_mem]
  have hinter : Finset.range n ∩ extra.filter (fun m => q < load m) =
      extra.filter fun m => q < load m :=
    Finset.inter_eq_right.mpr ((Finset.filter_subset _ _).trans hextra)
  rw [hinter, Finset.card_eq_sum_ones]

/-- **The exchange.** No choice of the owners that get one more keeps more than the choice of those
that have most. -/
theorem sum_min_le {count : Nat → Nat} {extra : Finset Nat} (hextra : extra ⊆ Finset.range n)
    (hcard : extra.card = r) (hmost : ∀ a ∈ extra, ∀ b < n, b ∉ extra → load b ≤ load a)
    (hcount : ∀ m < n, count m = q ∨ count m = q + 1)
    (hsum : ∑ m ∈ Finset.range n, count m = q * n + r) :
    ∑ m ∈ Finset.range n, min (load m) (count m) ≤
      ∑ m ∈ Finset.range n, min (load m) (q + if m ∈ extra then 1 else 0) := by
  -- the owners that get one more in the other assignment
  let others := (Finset.range n).filter fun m => count m = q + 1
  have hothers : others ⊆ Finset.range n := Finset.filter_subset _ _
  have hterm : ∀ m ∈ Finset.range n, count m = q + if m ∈ others then 1 else 0 := by
    intro m hm
    simp only [others, Finset.mem_filter, hm, true_and]
    split
    · assumption
    · exact (hcount m (Finset.mem_range.mp hm)).resolve_right ‹_›
  have hcard' : others.card = r := by
    rw [Finset.sum_congr rfl hterm, Finset.sum_add_distrib, Finset.sum_const, Finset.card_range,
      smul_eq_mul, Finset.sum_ite_mem, Finset.inter_eq_right.mpr hothers, ← Finset.card_eq_sum_ones,
      Nat.mul_comm] at hsum
    exact Nat.add_left_cancel hsum
  rw [Finset.sum_congr rfl fun m hm => by rw [hterm m hm], sum_min_extra others hothers,
    sum_min_extra extra hextra]
  refine Nat.add_le_add_left ?_ _
  by_cases hlight : ∃ a ∈ extra, load a ≤ q
  · -- an owner with one more has little, so whoever has much is among them
    obtain ⟨a, ha, hle⟩ := hlight
    refine Finset.card_le_card fun b hb => ?_
    obtain ⟨hb, hmuch⟩ := Finset.mem_filter.mp hb
    refine Finset.mem_filter.mpr ⟨?_, hmuch⟩
    by_contra hnot
    have hless := hmost a ha b (Finset.mem_range.mp (hothers hb)) hnot
    omega
  · -- each of them has much
    have hall : extra.filter (fun m => q < load m) = extra :=
      Finset.filter_eq_self.mpr fun a ha => Nat.not_le.mp fun hle => hlight ⟨a, ha, hle⟩
    rw [hall, hcard, ← hcard']
    exact Finset.card_filter_le _ _

theorem ceil_eq (p n : Nat) (hn : 0 < n) :
    (p + n - 1) / n = p / n + if p % n = 0 then 0 else 1 := by
  have hdiv := Nat.div_add_mod p n
  have hmod := Nat.mod_lt p hn
  split
  case isTrue h =>
    rw [Nat.add_zero]
    refine Nat.div_eq_of_lt_le ?_ ?_
    · rw [Nat.mul_comm]; omega
    · rw [Nat.add_mul, Nat.mul_comm]; omega
  case isFalse h =>
    refine Nat.div_eq_of_lt_le ?_ ?_
    · rw [Nat.add_mul, Nat.mul_comm]; omega
    · rw [Nat.add_mul, Nat.add_mul, Nat.mul_comm]; omega

/-- As many as the division of `p` items leaves over, and those that have most. -/
structure Favoured (n p : Nat) (load : Nat → Nat) (extra : Finset Nat) : Prop where
  sub : extra ⊆ Finset.range n
  card : extra.card = p % n
  most : ∀ a ∈ extra, ∀ b < n, b ∉ extra → load b ≤ load a

variable {p : Nat} {extra : Finset Nat}

theorem Favoured.sum_share (h : Favoured n p load extra) :
    ∑ m ∈ Finset.range n, (p / n + if m ∈ extra then 1 else 0) = p := by
  rw [Finset.sum_add_distrib, Finset.sum_const, Finset.card_range, smul_eq_mul, Finset.sum_ite_mem,
    Finset.inter_eq_right.mpr h.sub, ← Finset.card_eq_sum_ones, h.card]
  exact Nat.div_add_mod _ _

theorem Favoured.even (h : Favoured n p load extra) (hn : 0 < n) {assignment : List Nat}
    (hlen : assignment.length = p) (hlt : ∀ a ∈ assignment, a < n)
    (hcount : ∀ m < n, assignment.count m = p / n + if m ∈ extra then 1 else 0) :
    EvenAssignment n assignment := by
  refine ⟨hlt, fun m hm => ?_⟩
  rw [hlen, hcount m hm, ceil_eq _ _ hn]
  by_cases hmem : m ∈ extra
  · have hsome : p % n ≠ 0 := h.card ▸ Finset.card_ne_zero_of_mem hmem
    rw [if_pos hmem, if_neg hsome]
    exact .inr rfl
  · rw [if_neg hmem]
    exact .inl rfl

theorem Favoured.kept_le {current : List (Option Nat)} {other : List Nat}
    (h : Favoured n p (fun m => current.count (some m)) extra) (hn : 0 < n)
    (hlen : current.length = p) (hother : other.length = p) (heven : EvenAssignment n other) :
    kept current other ≤ ∑ m ∈ Finset.range n,
      min (current.count (some m)) (p / n + if m ∈ extra then 1 else 0) := by
  refine (kept_le_sum_min (hlen.trans hother.symm) heven.lt).trans
    (sum_min_le h.sub h.card h.most (fun m hm => ?_) ?_)
  · have hcount := heven.even m hm
    rw [hother, ceil_eq _ _ hn] at hcount
    split at hcount
    · exact .inl (hcount.elim (fun h => h) fun h => h)
    · exact hcount
  · rw [sum_count heven.lt, hother, Nat.mul_comm]
    exact (Nat.div_add_mod _ _).symm

end Exchange

end Iggy.Lib
