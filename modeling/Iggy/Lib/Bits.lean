import Mathlib.Data.Nat.Bitwise
import Mathlib.Tactic.Common

/-!
# Bitsets built bit by bit

A loop over the indices below `n` that sets bit `i` of an accumulator wherever `p i` holds.
`testBit_bitsOf` reads any bit of the result back.
-/

namespace Iggy.Lib

/-- `acc |= 1 << i` for every `i < n` with `p i`, in ascending order. -/
def bitsOf (p : Nat → Bool) (n : Nat) : Nat :=
  (List.range n).foldl (fun acc i => if p i then acc ||| 1 <<< i else acc) 0

variable {p : Nat → Bool} {n : Nat}

theorem bitsOf_succ :
    bitsOf p (n + 1) = if p n then bitsOf p n ||| 1 <<< n else bitsOf p n := by
  rw [bitsOf, List.range_succ, List.foldl_append]
  rfl

theorem testBit_bitsOf (i : Nat) : (bitsOf p n).testBit i = (decide (i < n) && p i) := by
  induction n with
  | zero => simp [bitsOf]
  | succ n ih =>
    have hone : (1 <<< n).testBit i = decide (n = i) := by
      rw [Nat.one_shiftLeft, Nat.testBit_two_pow]
    rw [bitsOf_succ]
    rcases Nat.lt_trichotomy i n with hlt | rfl | hgt
    · have hne : ¬ n = i := by omega
      have h1 : i < n + 1 := by omega
      split_ifs <;> simp [Nat.testBit_or, ih, hone, hne, hlt, h1]
    · split_ifs with hp <;> simp [Nat.testBit_or, ih, hone, hp]
    · have hne : ¬ n = i := by omega
      have h1 : ¬ i < n + 1 := by omega
      have h2 : ¬ i < n := by omega
      split_ifs <;> simp [Nat.testBit_or, ih, hone, hne, h1, h2]

theorem bitsOf_lt : bitsOf p n < 2 ^ n := by
  refine Nat.lt_pow_two_of_testBit _ fun i hi => ?_
  rw [testBit_bitsOf, decide_eq_false (Nat.not_lt.mpr hi), Bool.false_and]

end Iggy.Lib
