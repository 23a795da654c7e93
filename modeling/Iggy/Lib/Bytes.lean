import Mathlib.Data.List.Basic
import Mathlib.Tactic.Ring

/-!
# Fixed-width little-endian records

A C-layout record of unsigned integers is a list of field values, each in its own number of bytes,
least significant byte first. `unpackFields_packFields` is the round trip for values that fit their
fields.
-/

namespace Iggy

abbrev Bytes := List UInt8

end Iggy

namespace Iggy.Lib

open List

def leBytes : Nat → Nat → Bytes
  | 0, _ => []
  | w + 1, n => UInt8.ofNat (n % 256) :: leBytes w (n / 256)

def leNat : Bytes → Nat
  | [] => 0
  | b :: bs => b.toNat + 256 * leNat bs

@[simp] theorem length_leBytes (w n : Nat) : (leBytes w n).length = w := by
  induction w generalizing n with
  | zero => rfl
  | succ w ih => simp [leBytes, ih]

theorem leNat_leBytes (w n : Nat) (h : n < 256 ^ w) : leNat (leBytes w n) = n := by
  induction w generalizing n with
  | zero => simp only [pow_zero, Nat.lt_one_iff] at h; simp [leBytes, leNat, h]
  | succ w ih =>
    have hdiv : n / 256 < 256 ^ w := by
      rw [Nat.div_lt_iff_lt_mul (by decide)]
      rwa [pow_succ] at h
    simp only [leBytes, leNat, ih _ hdiv, UInt8.toNat_ofNat']
    omega

def packFields : List Nat → List Nat → Bytes
  | w :: ws, n :: ns => leBytes w n ++ packFields ws ns
  | _, _ => []

def unpackFields : List Nat → Bytes → List Nat
  | [], _ => []
  | w :: ws, bs => leNat (bs.take w) :: unpackFields ws (bs.drop w)

/-- Every value fits the width of its field, and there is one value per width. -/
def FieldsFit (ws ns : List Nat) : Prop := List.Forall₂ (fun w n => n < 256 ^ w) ws ns

instance (ws ns : List Nat) : Decidable (FieldsFit ws ns) :=
  inferInstanceAs (Decidable (List.Forall₂ _ _ _))

theorem length_packFields {ws ns : List Nat} (h : FieldsFit ws ns) :
    (packFields ws ns).length = ws.sum := by
  induction h with
  | nil => rfl
  | cons _ _ ih => simp [packFields, ih]

theorem unpackFields_packFields {ws ns : List Nat} (h : FieldsFit ws ns) :
    unpackFields ws (packFields ws ns) = ns := by
  induction h with
  | nil => rfl
  | cons hfit _ ih =>
    simp only [packFields, unpackFields]
    rw [take_left' (length_leBytes ..), drop_left' (length_leBytes ..), leNat_leBytes _ _ hfit, ih]

theorem unpackFields_append {ws : List Nat} {bs : Bytes} (tail : Bytes)
    (h : ws.sum ≤ bs.length) : unpackFields ws (bs ++ tail) = unpackFields ws bs := by
  induction ws generalizing bs with
  | nil => rfl
  | cons w ws ih =>
    rw [sum_cons] at h
    have hw : w ≤ bs.length := by omega
    simp only [unpackFields, take_append_of_le_length hw, drop_append_of_le_length hw]
    rw [ih (by rw [length_drop]; omega)]

theorem unpackFields_packFields_append {ws ns : List Nat} (h : FieldsFit ws ns) (tail : Bytes) :
    unpackFields ws (packFields ws ns ++ tail) = ns := by
  rw [unpackFields_append _ (length_packFields h).ge, unpackFields_packFields h]

theorem leNat_lt (bs : Bytes) : leNat bs < 256 ^ bs.length := by
  induction bs with
  | nil => decide
  | cons b bs ih =>
    have hb := b.toNat_lt
    rw [leNat, length_cons, pow_succ]
    omega

theorem fieldsFit_unpackFields (ws : List Nat) (bs : Bytes) :
    FieldsFit ws (unpackFields ws bs) := by
  induction ws generalizing bs with
  | nil => exact .nil
  | cons w ws ih =>
    refine .cons ?_ (ih _)
    calc leNat (bs.take w) < 256 ^ (bs.take w).length := leNat_lt _
      _ ≤ 256 ^ w := Nat.pow_le_pow_right (by decide) (by simp)

def chunkAt (size : Nat) (bs : Bytes) (i : Nat) : Bytes := (bs.drop (i * size)).take size

theorem chunkAt_flatMap {α : Type} (size : Nat) (enc : α → Bytes) (xs : List α)
    (hlen : ∀ x ∈ xs, (enc x).length = size) (i : Nat) (hi : i < xs.length) :
    chunkAt size (xs.flatMap enc) i = enc xs[i] := by
  induction xs generalizing i with
  | nil => exact absurd hi (Nat.not_lt_zero _)
  | cons x xs ih =>
    have hx : (enc x).length = size := hlen x mem_cons_self
    cases i with
    | zero => simp [chunkAt, take_left' hx]
    | succ i =>
      have hdrop : ((enc x ++ xs.flatMap enc).drop ((i + 1) * size)) =
          (xs.flatMap enc).drop (i * size) := by
        rw [← hx, Nat.succ_mul, Nat.add_comm, ← drop_drop, drop_left]
      simp only [chunkAt, flatMap_cons, hdrop, getElem_cons_succ]
      exact ih (fun y hy => hlen y (mem_cons_of_mem _ hy)) i (Nat.lt_of_succ_lt_succ hi)

theorem length_flatMap_const {α : Type} (size : Nat) (enc : α → Bytes) (xs : List α)
    (hlen : ∀ x ∈ xs, (enc x).length = size) : (xs.flatMap enc).length = xs.length * size := by
  induction xs with
  | nil => simp
  | cons x xs ih =>
    rw [flatMap_cons, length_append, hlen x mem_cons_self,
      ih fun y hy => hlen y (mem_cons_of_mem _ hy), length_cons]
    ring

end Iggy.Lib
