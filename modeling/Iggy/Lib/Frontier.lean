import Mathlib.Order.Bounds.Basic
import Mathlib.Tactic.Common

/-!
# The frontier of a run of marks

A log position is *marked* when it has what it takes to be passed. The frontier above `c` is the
last position reached from `c` by stepping over marked positions only. A walk taken up again after
more marks appeared ends where a walk from `c` would (`isGreatest_resume`).
-/

namespace Iggy.Lib

variable {mark : Nat → Bool} {c m fuel : Nat}

/-- The bounds of unbroken runs of marks above `c`. -/
def Runs (mark : Nat → Bool) (c : Nat) : Set Nat :=
  { m | c ≤ m ∧ ∀ p, c < p → p ≤ m → mark p = true }

/-- Step over marked positions, at most `fuel` of them. -/
def frontier (mark : Nat → Bool) : Nat → Nat → Nat
  | 0, c => c
  | fuel + 1, c => if mark (c + 1) then frontier mark fuel (c + 1) else c

theorem self_mem_runs : c ∈ Runs mark c := ⟨le_rfl, fun _ h1 h2 => absurd h1 (Nat.not_lt.mpr h2)⟩

theorem runs_anti {c' : Nat} (hc : c' ∈ Runs mark c) (hm : m ∈ Runs mark c') : m ∈ Runs mark c :=
  ⟨hc.1.trans hm.1, fun p h1 h2 => by
    by_cases h : p ≤ c'
    · exact hc.2 p h1 h
    · exact hm.2 p (Nat.lt_of_not_le h) h2⟩

theorem frontier_mem_runs : frontier mark fuel c ∈ Runs mark c := by
  induction fuel generalizing c with
  | zero => exact self_mem_runs
  | succ fuel ih =>
    unfold frontier
    split_ifs with h
    · refine runs_anti ⟨Nat.le_succ c, fun p h1 h2 => ?_⟩ ih
      obtain rfl : p = c + 1 := by omega
      exact h
    · exact self_mem_runs

theorem le_of_mem_runs {p : Nat} (hm : m ∈ Runs mark c) (hp : mark p = false) (hc : c < p) :
    m < p := by
  by_contra h
  exact Bool.false_ne_true (hp ▸ hm.2 p hc (Nat.le_of_not_lt h))

theorem frontier_stop (hfuel : ∀ p, c + fuel < p → mark p = false) :
    mark (frontier mark fuel c + 1) = false := by
  induction fuel generalizing c with
  | zero => exact hfuel _ (Nat.lt_succ_self c)
  | succ fuel ih =>
    unfold frontier
    split_ifs with h
    · exact ih fun p hp => hfuel p (by omega)
    · simpa using h

/-- **The walk ends at the frontier** when the fuel reaches past the last mark. -/
theorem isGreatest_frontier (hfuel : ∀ p, c + fuel < p → mark p = false) :
    IsGreatest (Runs mark c) (frontier mark fuel c) :=
  ⟨frontier_mem_runs, fun _ hm => Nat.lt_succ_iff.mp <|
    le_of_mem_runs hm (frontier_stop hfuel) (Nat.lt_succ_of_le frontier_mem_runs.1)⟩

theorem isGreatest_resume {mark' : Nat → Bool} (hmono : ∀ p, mark p = true → mark' p = true)
    (hm : m ∈ Runs mark c) (hfuel : ∀ p, m + fuel < p → mark' p = false) :
    IsGreatest (Runs mark' c) (frontier mark' fuel m) := by
  have hm' : m ∈ Runs mark' c := ⟨hm.1, fun p h1 h2 => hmono p (hm.2 p h1 h2)⟩
  refine ⟨runs_anti hm' frontier_mem_runs, fun x hx => ?_⟩
  by_cases h : m ≤ x
  · exact (isGreatest_frontier hfuel).2 ⟨h, fun p h1 h2 => hx.2 p (hm.1.trans_lt h1) h2⟩
  · exact (Nat.le_of_not_le h).trans frontier_mem_runs.1

end Iggy.Lib
