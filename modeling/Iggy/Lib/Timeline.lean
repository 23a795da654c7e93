import Mathlib.Data.List.Sort
import Mathlib.Order.Basic

/-!
# Lists in strictly increasing order of a key

Such a list is determined by its members, so cutting a log at a bound, merging two of them and
reading it page by page are all statements about membership.
-/

namespace Iggy.Lib

open List

variable {α κ : Type} [LinearOrder κ] {key : α → κ} {l l' : List α}

/-! ## Cutting -/

variable {a : α}

/-- For a predicate that holds of a leading run only. -/
theorem mem_drop_takeWhile {p : α → Bool} (h : l.Pairwise fun a b => p b = true → p a = true)
    : a ∈ l.drop (l.takeWhile p).length ↔ a ∈ l ∧ p a = false := by
  induction l with
  | nil => simp
  | cons b l ih =>
    have hb := pairwise_cons.mp h
    rw [takeWhile_cons]
    split
    case isTrue hp =>
      rw [length_cons, drop_succ_cons, ih hb.2, mem_cons]
      refine ⟨fun ⟨ha, hpa⟩ => ⟨.inr ha, hpa⟩, fun ⟨ha, hpa⟩ => ⟨ha.resolve_left ?_, hpa⟩⟩
      rintro rfl
      simp [hp] at hpa
    case isFalse hp =>
      refine ⟨fun ha => ⟨ha, ?_⟩, And.left⟩
      obtain rfl | ha := mem_cons.mp ha
      · simpa using hp
      · by_contra hpa
        exact hp (hb.1 a ha (by simpa using hpa))

theorem mem_drop_takeWhile_le (h : l.Pairwise fun a b => key a ≤ key b) (t : κ) :
    a ∈ l.drop (l.takeWhile fun b => key b ≤ t).length ↔ a ∈ l ∧ t < key a := by
  have hrun : l.Pairwise fun a b => decide (key b ≤ t) = true → decide (key a ≤ t) = true :=
    h.imp fun hab hb => decide_eq_true (hab.trans (of_decide_eq_true hb))
  rw [mem_drop_takeWhile hrun, decide_eq_false_iff_not, not_le]

theorem mem_drop_takeWhile_lt (h : l.Pairwise fun a b => key a ≤ key b) (t : κ) :
    a ∈ l.drop (l.takeWhile fun b => key b < t).length ↔ a ∈ l ∧ t ≤ key a := by
  have hrun : l.Pairwise fun a b => decide (key b < t) = true → decide (key a < t) = true :=
    h.imp fun hab hb => decide_eq_true (hab.trans_lt (of_decide_eq_true hb))
  rw [mem_drop_takeWhile hrun, decide_eq_false_iff_not, not_lt]

theorem mem_dropWhile_lt (h : l.Pairwise fun a b => key a ≤ key b) (t : κ) :
    a ∈ (l.dropWhile fun b => key b < t) ↔ a ∈ l ∧ t ≤ key a := by
  rw [← mem_drop_takeWhile_lt h]
  nth_rewrite 3 [← takeWhile_append_dropWhile (p := fun b => key b < t) (l := l)]
  rw [drop_left]

theorem mem_drop_max {m n : Nat} : a ∈ l.drop (max m n) ↔ a ∈ l.drop m ∧ a ∈ l.drop n := by
  obtain hmn | hnm := Nat.le_total m n
  · rw [Nat.max_eq_right hmn]
    exact ⟨fun ha => ⟨drop_subset_drop_left l hmn ha, ha⟩, And.right⟩
  · rw [Nat.max_eq_left hnm]
    exact ⟨fun ha => ⟨ha, drop_subset_drop_left l hnm ha⟩, And.left⟩

/-! ## Merging -/

/-- Merge two lists by key; of two members with one key the first list's comes first. -/
def mergeByKey (key : α → κ) : List α → List α → List α
  | [], l' => l'
  | a :: l, l' => l'.takeWhile (fun b => key b < key a) ++
      a :: mergeByKey key l (l'.dropWhile fun b => key b < key a)

theorem mem_mergeByKey : a ∈ mergeByKey key l l' ↔ a ∈ l ∨ a ∈ l' := by
  induction l generalizing l' with
  | nil => simp [mergeByKey]
  | cons b l ih =>
    have hsplit : a ∈ l' ↔ a ∈ l'.takeWhile (fun c => key c < key b) ∨
        a ∈ l'.dropWhile fun c => key c < key b := by
      rw [← mem_append, takeWhile_append_dropWhile]
    rw [mergeByKey, mem_append, mem_cons, ih, hsplit, mem_cons]
    tauto

/-! ## Ascending lists -/

def Ascending (key : α → κ) (l : List α) : Prop := l.Pairwise fun a b => key a < key b

namespace Ascending

theorem sublist (h : Ascending key l) (hs : l'.Sublist l) : Ascending key l' :=
  List.Pairwise.sublist hs h

theorem filter (h : Ascending key l) (p : α → Bool) : Ascending key (l.filter p) :=
  h.sublist filter_sublist

theorem append (h : Ascending key l) (h' : Ascending key l')
    (hlt : ∀ a ∈ l, ∀ b ∈ l', key a < key b) : Ascending key (l ++ l') :=
  pairwise_append.mpr ⟨h, h', hlt⟩

theorem inj (h : Ascending key l) {a b : α} (ha : a ∈ l) (hb : b ∈ l) (hk : key a = key b) :
    a = b := by
  induction l with
  | nil => exact absurd ha not_mem_nil
  | cons c l ih =>
    have hc := pairwise_cons.mp h
    obtain rfl | ha' := mem_cons.mp ha <;> obtain rfl | hb' := mem_cons.mp hb
    · rfl
    · exact absurd hk (hc.1 b hb').ne
    · exact absurd hk (hc.1 a ha').ne'
    · exact ih hc.2 ha' hb'

theorem eq_of_mem_iff (h : Ascending key l) (h' : Ascending key l')
    (hmem : ∀ a, a ∈ l ↔ a ∈ l') : l = l' := by
  have : Std.Irrefl fun a b : α => key a < key b := ⟨fun a => lt_irrefl (key a)⟩
  have : Std.Antisymm fun a b : α => key a < key b := ⟨fun a b hab hba => absurd hab hba.asymm⟩
  exact List.Pairwise.eq_of_mem_iff (show l.Pairwise fun a b => key a < key b from h) h' hmem

theorem mergeByKey (h : Ascending key l) (h' : Ascending key l')
    (hne : ∀ a ∈ l, ∀ b ∈ l', key a ≠ key b) : Ascending key (mergeByKey key l l') := by
  induction l generalizing l' with
  | nil => exact h'
  | cons a l ih =>
    have ha := pairwise_cons.mp h
    have hdrop : ∀ b ∈ l'.dropWhile fun b => key b < key a, key a < key b := by
      intro b hb
      obtain ⟨hmem, hle⟩ := (mem_dropWhile_lt (h'.imp le_of_lt) (key a)).mp hb
      exact lt_of_le_of_ne hle (hne a (by simp) b hmem)
    refine append (h'.sublist (takeWhile_sublist _)) (pairwise_cons.mpr
      ⟨fun b hb => ?_, ih ha.2 (h'.sublist (dropWhile_sublist _)) fun b hb c hc => ?_⟩) ?_
    · obtain hb | hb := mem_mergeByKey.mp hb
      · exact ha.1 b hb
      · exact hdrop b hb
    · exact hne b (mem_cons_of_mem _ hb) c ((dropWhile_sublist _).subset hc)
    · intro b hb c hc
      have hba : key b < key a := of_decide_eq_true (all_eq_true.mp all_takeWhile b hb)
      obtain rfl | hc := mem_cons.mp hc
      · exact hba
      · obtain hc | hc := mem_mergeByKey.mp hc
        · exact hba.trans (ha.1 c hc)
        · exact hba.trans (hdrop c hc)

theorem foldl_mergeByKey {init : List α} {ls : List (List α)} (h : Ascending key init)
    (hls : ∀ l ∈ ls, Ascending key l)
    (hne : (init :: ls).Pairwise fun l l' => ∀ a ∈ l, ∀ b ∈ l', key a ≠ key b) :
    Ascending key (ls.foldl (Lib.mergeByKey key) init) := by
  induction ls generalizing init with
  | nil => exact h
  | cons l ls ih =>
    obtain ⟨hinit, hrest⟩ := pairwise_cons.mp hne
    obtain ⟨hl, htail⟩ := pairwise_cons.mp hrest
    refine ih (h.mergeByKey (hls l (by simp)) (hinit l (by simp)))
      (fun l' hl' => hls l' (mem_cons_of_mem _ hl')) (pairwise_cons.mpr ⟨?_, htail⟩)
    intro l' hl' a ha
    obtain ha | ha := mem_mergeByKey.mp ha
    · exact hinit l' (mem_cons_of_mem _ hl') a ha
    · exact hl l' hl' a ha

theorem le_getLast (h : Ascending key l) {a b : α} (ha : a ∈ l) (hb : b ∈ l.getLast?) :
    key a ≤ key b := by
  obtain ⟨init, rfl⟩ := getLast?_eq_some_iff.mp hb
  obtain hi | hl := mem_append.mp ha
  · exact ((pairwise_append.mp h).2.2 a hi b (by simp)).le
  · rw [mem_singleton.mp hl]

end Ascending

theorem mem_foldl_mergeByKey {init : List α} {ls : List (List α)} :
    a ∈ ls.foldl (mergeByKey key) init ↔ a ∈ init ∨ ∃ l ∈ ls, a ∈ l := by
  induction ls generalizing init with
  | nil => simp
  | cons l ls ih =>
    rw [foldl_cons, ih, mem_mergeByKey, exists_mem_cons_iff, or_assoc]

theorem foldl_max_mem (init : κ) (l : List κ) : l.foldl max init ∈ init :: l := by
  induction l generalizing init with
  | nil => simp
  | cons a l ih =>
    obtain h | h := mem_cons.mp (ih (max init a))
    · rw [foldl_cons, h]
      obtain h' | h' := le_total init a
      · simp [max_eq_right h']
      · simp [max_eq_left h']
    · exact mem_cons_of_mem _ (mem_cons_of_mem _ h)

theorem le_foldl_max {init a : κ} {l : List κ} (h : a ∈ init :: l) : a ≤ l.foldl max init := by
  induction l generalizing init a with
  | nil => exact (mem_singleton.mp h).le
  | cons b l ih =>
    have hmax : max init b ≤ l.foldl max (max init b) := ih (by simp)
    obtain rfl | h := mem_cons.mp h
    · exact (le_max_left _ _).trans hmax
    · obtain rfl | h := mem_cons.mp h
      · exact (le_max_right _ _).trans hmax
      · exact ih (mem_cons_of_mem _ h)

/-- `Iterator::max_by_key`: of several members with the greatest key, the last. -/
def maxByKey (key : α → κ) : List α → Option α
  | [] => none
  | a :: l => match maxByKey key l with
    | none => some a
    | some b => if key a ≤ key b then some b else some a

theorem maxByKey_eq_none {l : List α} : maxByKey key l = none ↔ l = [] := by
  cases l with
  | nil => simp [maxByKey]
  | cons a l =>
    rw [maxByKey]
    split
    · simp
    · split <;> simp

theorem maxByKey_spec {l : List α} (h : maxByKey key l = some a) :
    a ∈ l ∧ ∀ b ∈ l, key b ≤ key a := by
  induction l generalizing a with
  | nil => cases h
  | cons c l ih =>
    rw [maxByKey] at h
    split at h
    case h_1 hnone =>
      cases h
      simp [maxByKey_eq_none.mp hnone]
    case h_2 d hd =>
      obtain ⟨hmem, hle⟩ := ih hd
      split at h <;> cases h
      case isTrue hcd =>
        exact ⟨mem_cons_of_mem _ hmem, forall_mem_cons.mpr ⟨hcd, hle⟩⟩
      case isFalse hcd =>
        exact ⟨mem_cons_self,
          forall_mem_cons.mpr ⟨le_rfl, fun b hb => (hle b hb).trans (not_le.mp hcd).le⟩⟩

end Iggy.Lib
