import Mathlib.Data.List.Basic
import Mathlib.Order.Basic

/-!
# The last entry at or below a target

A list whose keys ascend is cut by a target: before `firstAbove` the keys are at or below it, from
there on they are above. `lastAtOrBelow` is the entry just before the cut. `binarySearchByKey` is
the search of Rust's slices, which keeps an interval that the cut is in and halves it.
-/

namespace Iggy.Lib

open List

variable {α : Type} {entries : List α} {key : α → Nat} {target : Nat}

/-- Where the keys pass the target. -/
def firstAbove (entries : List α) (key : α → Nat) (target : Nat) : Nat :=
  entries.findIdx fun entry => target < key entry

def lastAtOrBelow (entries : List α) (key : α → Nat) (target : Nat) : Option α :=
  entries.reverse.find? fun entry => key entry ≤ target

theorem firstAbove_le_length : firstAbove entries key target ≤ entries.length :=
  findIdx_le_length

/-- **The cut.** An entry is before it exactly when its key is at most the target. -/
theorem lt_firstAbove_iff (hsorted : entries.Pairwise fun a b => key a < key b) (target : Nat)
    {i : Nat} {entry : α} (hentry : entries[i]? = some entry) :
    i < firstAbove entries key target ↔ key entry ≤ target := by
  obtain ⟨hi, rfl⟩ := List.getElem?_eq_some_iff.mp hentry
  constructor
  · intro hlt
    exact Nat.not_lt.mp (of_decide_eq_false (not_of_lt_findIdx hlt))
  · intro hle
    by_contra hge
    have hlt : firstAbove entries key target < entries.length := by omega
    have hfound : decide (target < key entries[firstAbove entries key target]) = true :=
      findIdx_getElem (w := hlt)
    have habove := of_decide_eq_true hfound
    rcases Nat.lt_or_eq_of_le (Nat.not_lt.mp hge) with hbefore | heq
    · have hkeys := pairwise_iff_getElem.mp hsorted _ _ hlt hi hbefore
      exact absurd hle (Nat.not_le.mpr (Nat.lt_trans habove hkeys))
    · simp only [heq] at habove
      exact absurd hle (Nat.not_le.mpr habove)

theorem lt_key_of_firstAbove_eq_zero
    (hsorted : entries.Pairwise fun a b => key a < key b) (hcut : firstAbove entries key target = 0)
    {entry : α} (hmem : entry ∈ entries) : target < key entry := by
  obtain ⟨i, hi⟩ := getElem?_of_mem hmem
  have hnot := (lt_firstAbove_iff hsorted target hi).not
  rw [hcut] at hnot
  exact Nat.not_le.mp (hnot.mp (Nat.not_lt_zero i))

theorem lastAtOrBelow_eq (hsorted : entries.Pairwise fun a b => key a < key b) :
    lastAtOrBelow entries key target =
      if firstAbove entries key target = 0 then none
      else entries[firstAbove entries key target - 1]? := by
  have hle : firstAbove entries key target ≤ entries.length := firstAbove_le_length
  split
  case isTrue hcut =>
    refine find?_eq_none.mpr fun entry hmem => ?_
    have habove := lt_key_of_firstAbove_eq_zero hsorted hcut (mem_reverse.mp hmem)
    simpa using habove
  case isFalse hcut =>
    have hlast : firstAbove entries key target - 1 < entries.length := by omega
    have hget := getElem?_eq_getElem hlast
    rw [hget]
    refine find?_eq_some_iff_getElem.mpr ⟨?_, entries.length - firstAbove entries key target,
      by rw [length_reverse]; omega, ?_, fun j hj => ?_⟩
    · exact decide_eq_true ((lt_firstAbove_iff hsorted target hget).mp (by omega))
    · rw [getElem_reverse]
      congr 1
      omega
    · -- what comes first in the reversed list is past the cut
      have hbefore : entries.length - 1 - j < entries.length := by omega
      have hnot := (lt_firstAbove_iff hsorted target
        (getElem?_eq_getElem hbefore)).not.mp (by omega)
      rw [getElem_reverse]
      simpa using hnot

/-! ## The search of a slice -/

/-- The loop of `slice::binary_search_by`: `base` moves to the middle unless the key there is above
the target. -/
def searchBase (entries : List α) (key : α → Nat) (target : Nat) : (fuel size base : Nat) → Nat
  | 0, _, base => base
  | fuel + 1, size, base =>
    if 1 < size then
      let half := size / 2
      let base := match entries[base + half]? with
        | none => base
        | some entry => if target < key entry then base else base + half
      searchBase entries key target fuel (size - half) base
    else base

/-- `slice::binary_search_by_key`: where the key is, or else where it would go. -/
def binarySearchByKey (entries : List α) (key : α → Nat) (target : Nat) : Except Nat Nat :=
  let base := searchBase entries key target entries.length entries.length 0
  match entries[base]? with
  | none => .error 0
  | some entry =>
    if key entry = target then .ok base
    else .error (base + if key entry < target then 1 else 0)

/-- In any order of the keys. -/
theorem key_searchBase_le {fuel size base : Nat}
    (hbase : base ≠ 0 → ∀ entry ∈ entries[base]?, key entry ≤ target) :
    searchBase entries key target fuel size base ≠ 0 →
      ∀ entry ∈ entries[searchBase entries key target fuel size base]?, key entry ≤ target := by
  induction fuel generalizing size base with
  | zero => exact hbase
  | succ fuel ih =>
    rw [searchBase]
    split
    · refine ih ?_
      split
      · exact hbase
      · rename_i entry hentry
        split
        · exact hbase
        · rename_i hle
          intro _ found hfound
          cases hentry.symm.trans hfound
          exact Nat.not_lt.mp hle
    · exact hbase

theorem searchBase_spec (hsorted : entries.Pairwise fun a b => key a < key b)
    (target fuel size base : Nat) (hfuel : size ≤ fuel + 1) (hsize : 0 < size)
    (hend : base + size ≤ entries.length) (hcut : firstAbove entries key target ≤ base + size)
    (hbase : base = 0 ∨ base < firstAbove entries key target) :
    let found := searchBase entries key target fuel size base
    found < entries.length ∧ firstAbove entries key target ≤ found + 1 ∧
      (found = 0 ∨ found < firstAbove entries key target) := by
  induction fuel generalizing size base with
  | zero => exact ⟨by simp only [searchBase]; omega, by simp only [searchBase]; omega, hbase⟩
  | succ fuel ih =>
    rw [searchBase]
    split
    case isTrue hlt =>
      have hmiddle : base + size / 2 < entries.length := by omega
      have hget := getElem?_eq_getElem hmiddle
      have hiff := lt_firstAbove_iff hsorted target hget
      simp only [hget]
      split
      case isTrue habove =>
        have hnot := hiff.not.mpr (Nat.not_le.mpr habove)
        exact ih (size - size / 2) base (by omega) (by omega) (by omega) (by omega) hbase
      case isFalse hbelow =>
        have hin := hiff.mpr (Nat.not_lt.mp hbelow)
        exact ih (size - size / 2) (base + size / 2) (by omega) (by omega) (by omega) (by omega)
          (.inr hin)
    case isFalse hone => exact ⟨by omega, by omega, hbase⟩

/-- **The search of a slice finds the cut**: one before it when the target is a key. -/
theorem binarySearchByKey_spec (hsorted : entries.Pairwise fun a b => key a < key b)
    (target : Nat) :
    (match binarySearchByKey entries key target with
      | .ok i => i + 1
      | .error i => i) = firstAbove entries key target := by
  unfold binarySearchByKey
  rcases Nat.eq_zero_or_pos entries.length with hempty | hpos
  · obtain rfl := length_eq_zero_iff.mp hempty
    rfl
  · obtain ⟨hlt, hcut, hbase⟩ := searchBase_spec hsorted target entries.length
      entries.length 0 (Nat.le_succ _) hpos (by omega) (by simpa using firstAbove_le_length) (.inl rfl)
    have hget := getElem?_eq_getElem hlt
    have hiff := lt_firstAbove_iff hsorted target hget
    simp only [hget]
    split_ifs with heq hless
    · have hin := hiff.mpr (Nat.le_of_eq heq)
      simp only
      omega
    · have hin := hiff.mpr (Nat.le_of_lt hless)
      simp only
      omega
    · have hout := hiff.not.mpr (by omega)
      simp only
      omega

end Iggy.Lib
