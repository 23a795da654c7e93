import Mathlib.Algebra.GroupWithZero.Nat
import Mathlib.Data.List.Basic

/-!
# Records laid end to end

`next` reads the record at the front of a byte string, or nothing where there is none, and `size`
says how many bytes it took. `records` is the walk over the string up to the first place that holds
no record, and `covered` is how far it came.
-/

namespace Iggy.Lib

open List

structure Framing (ρ : Type) where
  next : List UInt8 → Option ρ
  size : ρ → Nat
  size_pos : ∀ {bs r}, next bs = some r → 0 < size r
  size_le : ∀ {bs r}, next bs = some r → size r ≤ bs.length

namespace Framing

variable {ρ : Type} (F : Framing ρ)

/-- The walk; `fuel` bounds the number of records. -/
def walk : Nat → List UInt8 → List ρ
  | 0, _ => []
  | fuel + 1, bs =>
    match F.next bs with
    | none => []
    | some r => r :: walk fuel (bs.drop (F.size r))

/-- No string has more records than bytes. -/
def records (bs : List UInt8) : List ρ := F.walk bs.length bs

def covered (bs : List UInt8) : Nat := ((F.records bs).map F.size).sum

variable {F} {bs : List UInt8} {r : ρ}

theorem next_nil : F.next [] = none := by
  cases h : F.next [] with
  | none => rfl
  | some r => exact absurd (F.size_le h) (by have := F.size_pos h; simp; omega)

/-- More fuel than bytes changes nothing. -/
theorem walk_eq_records {fuel : Nat} (h : bs.length ≤ fuel) : F.walk fuel bs = F.records bs := by
  -- both walks take the same step and leave fewer bytes
  suffices ∀ n m bs, bs.length ≤ n → bs.length ≤ m → F.walk n bs = F.walk m bs from
    this fuel bs.length bs h (Nat.le_refl _)
  intro n
  induction n with
  | zero =>
    intro m bs hn _
    obtain rfl := length_eq_zero_iff.mp (Nat.le_zero.mp hn)
    cases m with
    | zero => rfl
    | succ m => simp [walk, next_nil]
  | succ n ih =>
    intro m bs hn hm
    cases m with
    | zero =>
      obtain rfl := length_eq_zero_iff.mp (Nat.le_zero.mp hm)
      simp [walk, next_nil]
    | succ m =>
      simp only [walk]
      cases hnext : F.next bs with
      | none => rfl
      | some r =>
        have hpos := F.size_pos hnext
        have hle := F.size_le hnext
        simp only
        rw [ih m (bs.drop (F.size r)) (by rw [length_drop]; omega)
          (by rw [length_drop]; omega)]

theorem records_of_next_none (h : F.next bs = none) : F.records bs = [] := by
  unfold records
  cases bs.length with
  | zero => rfl
  | succ n => simp [walk, h]

theorem records_of_next (h : F.next bs = some r) :
    F.records bs = r :: F.records (bs.drop (F.size r)) := by
  have hpos := F.size_pos h
  have hle := F.size_le h
  obtain ⟨n, hn⟩ : ∃ n, bs.length = n + 1 := ⟨bs.length - 1, by omega⟩
  rw [records, hn, walk, h]
  simp only
  rw [walk_eq_records (by rw [length_drop]; omega)]

theorem exists_next_of_mem (h : r ∈ F.records bs) : ∃ bs', F.next bs' = some r := by
  unfold records at h
  generalize bs.length = fuel at h
  induction fuel generalizing bs with
  | zero => exact nomatch h
  | succ fuel ih =>
    simp only [walk] at h
    split at h
    · exact nomatch h
    case h_2 r' hnext =>
      obtain rfl | h := mem_cons.mp h
      · exact ⟨bs, hnext⟩
      · exact ih h

@[simp] theorem records_nil : F.records [] = [] := records_of_next_none next_nil

theorem flatMap_records {bytesOf : ρ → List UInt8}
    (h : ∀ bs r, F.next bs = some r → bytesOf r = bs.take (F.size r)) :
    (F.records bs).flatMap bytesOf = bs.take (F.covered bs) := by
  unfold covered records
  generalize bs.length = fuel
  induction fuel generalizing bs with
  | zero => simp [walk]
  | succ fuel ih =>
    simp only [walk]
    cases hnext : F.next bs with
    | none => simp
    | some r =>
      simp only [flatMap_cons, map_cons, sum_cons]
      rw [h bs r hnext, ih, take_add]

variable {α : Type} {enc : α → List UInt8} {dec : α → ρ} {xs : List α}
  (hread : ∀ x ∈ xs, ∀ tail, F.next (enc x ++ tail) = some (dec x))
  (hsize : ∀ x ∈ xs, F.size (dec x) = (enc x).length)

include hread hsize

theorem records_flatMap : F.records (xs.flatMap enc) = xs.map dec := by
  induction xs with
  | nil => simp
  | cons x xs ih =>
    have hx := hread x mem_cons_self (xs.flatMap enc)
    rw [flatMap_cons, records_of_next hx, hsize x mem_cons_self, drop_left,
      map_cons, ih (fun y hy => hread y (mem_cons_of_mem x hy))
        (fun y hy => hsize y (mem_cons_of_mem x hy))]

theorem covered_flatMap : F.covered (xs.flatMap enc) = (xs.flatMap enc).length := by
  rw [covered, records_flatMap hread hsize, map_map, length_flatMap]
  exact congrArg List.sum (map_congr_left hsize)

end Framing

end Iggy.Lib
