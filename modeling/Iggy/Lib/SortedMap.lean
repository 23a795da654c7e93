import Mathlib.Order.Defs.LinearOrder
import Mathlib.Data.List.Basic
import Mathlib.Data.List.Sort

/-!
# Ordered maps

A map from an ordered key, as the list of its entries in ascending key order. `upsert` is the "entry
or insert, then change it" of a map interface, `retain` its filter by key.
-/

namespace Iggy.Lib

open List

structure SortedMap (κ α : Type) [LinearOrder κ] where
  entries : List (κ × α)
  sorted : entries.Pairwise fun x y => x.1 < y.1

namespace SortedMap

variable {κ α : Type} [LinearOrder κ]

def empty : SortedMap κ α := ⟨[], .nil⟩

def get? (m : SortedMap κ α) (k : κ) : Option α := m.entries.lookup k

def isEmpty (m : SortedMap κ α) : Bool := m.entries.isEmpty

/-- Change the value at `k`, or put one there, in its place in the order. -/
def upsertEntries (k : κ) (f : Option α → α) : List (κ × α) → List (κ × α)
  | [] => [(k, f none)]
  | (k', a) :: rest =>
    if k < k' then (k, f none) :: (k', a) :: rest
    else if k = k' then (k, f (some a)) :: rest
    else (k', a) :: upsertEntries k f rest

variable {k : κ} {f : Option α → α} {l : List (κ × α)}

theorem fst_mem_upsertEntries {x : κ × α} (h : x ∈ upsertEntries k f l) : x.1 = k ∨ x ∈ l := by
  induction l with
  | nil => exact .inl (by rw [mem_singleton.mp h])
  | cons y rest ih =>
    simp only [upsertEntries] at h
    split at h
    · obtain rfl | h := mem_cons.mp h
      · exact .inl rfl
      · exact .inr h
    · split at h
      · obtain rfl | h := mem_cons.mp h
        · exact .inl rfl
        · exact .inr (mem_cons_of_mem _ h)
      · obtain rfl | h := mem_cons.mp h
        · exact .inr mem_cons_self
        · exact (ih h).imp_right (mem_cons_of_mem _)

theorem sorted_upsertEntries (h : l.Pairwise fun x y => x.1 < y.1) :
    (upsertEntries k f l).Pairwise fun x y => x.1 < y.1 := by
  induction l with
  | nil => exact pairwise_singleton ..
  | cons y rest ih =>
    obtain ⟨hy, hrest⟩ := pairwise_cons.mp h
    simp only [upsertEntries]
    split
    case isTrue hlt =>
      exact pairwise_cons.mpr ⟨forall_mem_cons.mpr ⟨hlt, fun x hx => lt_trans hlt (hy x hx)⟩, h⟩
    case isFalse hnot =>
      split
      case isTrue heq => exact pairwise_cons.mpr ⟨fun x hx => heq ▸ hy x hx, hrest⟩
      case isFalse hne =>
        have hlt : y.1 < k := lt_of_le_of_ne (not_lt.mp hnot) (Ne.symm hne)
        refine pairwise_cons.mpr ⟨fun x hx => ?_, ih hrest⟩
        obtain hk | hx := fst_mem_upsertEntries hx
        · exact hk ▸ hlt
        · exact hy x hx

def upsert (m : SortedMap κ α) (k : κ) (f : Option α → α) : SortedMap κ α :=
  ⟨upsertEntries k f m.entries, sorted_upsertEntries m.sorted⟩

def retain (m : SortedMap κ α) (keep : κ → Bool) : SortedMap κ α :=
  ⟨m.entries.filter fun x => keep x.1, m.sorted.filter _⟩

def insert (m : SortedMap κ α) (k : κ) (a : α) : SortedMap κ α := m.upsert k fun _ => a

def erase (m : SortedMap κ α) (k : κ) : SortedMap κ α := m.retain fun k' => k' ≠ k

theorem lookup_eq_none_of_lt (h : ∀ x ∈ l, k < x.1) : l.lookup k = none :=
  lookup_eq_none_iff.mpr fun x hx => by simpa using ne_of_lt (h x hx)

theorem lookup_cons_ite (k k' : κ) (a : α) (l : List (κ × α)) :
    ((k, a) :: l).lookup k' = if k' = k then some a else l.lookup k' := by
  rw [lookup_cons]
  by_cases h : k' = k <;> simp [h, beq_false_of_ne]

variable {m : SortedMap κ α}

theorem mem_entries {a : α} : (k, a) ∈ m.entries ↔ m.get? k = some a := by
  obtain ⟨l, hl⟩ := m
  show (k, a) ∈ l ↔ l.lookup k = some a
  induction l with
  | nil => simp
  | cons y rest ih =>
    obtain ⟨hy, hrest⟩ := pairwise_cons.mp hl
    obtain ⟨k', b⟩ := y
    rw [lookup_cons_ite, mem_cons]
    by_cases hk : k = k'
    · subst hk
      have hnot : (k, a) ∉ rest := fun hmem => absurd (hy _ hmem) (lt_irrefl _)
      simp [hnot, eq_comm]
    · simp [hk, ih hrest]

/-- A map is its lookups. -/
theorem ext_get? {m' : SortedMap κ α} (h : ∀ k, m.get? k = m'.get? k) : m = m' := by
  have : Std.Irrefl fun x y : κ × α => x.1 < y.1 := ⟨fun x => lt_irrefl x.1⟩
  have : Std.Antisymm fun x y : κ × α => x.1 < y.1 := ⟨fun x y hxy hyx => absurd hxy hyx.asymm⟩
  have hentries : m.entries = m'.entries := m.sorted.eq_of_mem_iff m'.sorted fun x => by
    rw [mem_entries, mem_entries, h]
  cases m
  cases m'
  cases hentries
  rfl

theorem get?_upsert (m : SortedMap κ α) (k k' : κ) (f : Option α → α) :
    (m.upsert k f).get? k' = if k' = k then some (f (m.get? k)) else m.get? k' := by
  obtain ⟨l, hl⟩ := m
  show (upsertEntries k f l).lookup k' = if k' = k then some (f (l.lookup k)) else l.lookup k'
  induction l with
  | nil => exact lookup_cons_ite ..
  | cons y rest ih =>
    obtain ⟨hy, hrest⟩ := pairwise_cons.mp hl
    obtain ⟨k₀, a⟩ := y
    simp only [upsertEntries]
    split
    case isTrue hlt =>
      have hnone : ((k₀, a) :: rest).lookup k = none := lookup_eq_none_of_lt
        (forall_mem_cons.mpr ⟨hlt, fun x hx => lt_trans hlt (hy x hx)⟩)
      rw [lookup_cons_ite, hnone]
    case isFalse =>
      split
      case isTrue heq =>
        simp only [lookup_cons_ite, heq, if_true]
        split <;> rfl
      case isFalse hne =>
        simp only [lookup_cons_ite, ih hrest, if_neg hne]
        split_ifs with h₀ h
        · exact absurd (h.symm.trans h₀) hne
        all_goals rfl

theorem get?_retain (m : SortedMap κ α) (keep : κ → Bool) (k : κ) :
    (m.retain keep).get? k = if keep k then m.get? k else none := by
  apply Option.ext
  intro a
  rw [← mem_entries]
  simp only [retain, mem_filter, mem_entries]
  cases keep k <;> simp

theorem get?_insert (m : SortedMap κ α) (k k' : κ) (a : α) :
    (m.insert k a).get? k' = if k' = k then some a else m.get? k' := by
  rw [insert, get?_upsert]

theorem get?_erase (m : SortedMap κ α) (k k' : κ) :
    (m.erase k).get? k' = if k' = k then none else m.get? k' := by
  rw [erase, get?_retain]
  by_cases h : k' = k <;> simp [h]

@[simp] theorem get?_empty (k : κ) : (empty : SortedMap κ α).get? k = none := rfl

theorem get?_of_isEmpty (h : m.isEmpty = true) (k : κ) : m.get? k = none := by
  simp [get?, List.isEmpty_iff.mp h]

theorem length_upsert_le (m : SortedMap κ α) (f : Option α → α) {n : Nat}
    (hfits : m.entries.length ≤ n) (hroom : m.get? k = none → m.entries.length < n) :
    (m.upsert k f).entries.length ≤ n := by
  obtain ⟨l, hsorted⟩ := m
  change (upsertEntries k f l).length ≤ n
  replace hroom : l.lookup k = none → l.length < n := hroom
  replace hfits : l.length ≤ n := hfits
  induction l generalizing n with
  | nil => exact hroom rfl
  | cons y rest ih =>
    obtain ⟨hy, hrest⟩ := pairwise_cons.mp hsorted
    simp only [upsertEntries]
    split
    case isTrue hlt =>
      exact hroom (lookup_eq_none_of_lt
        (forall_mem_cons.mpr ⟨hlt, fun x hx => hlt.trans (hy x hx)⟩))
    case isFalse =>
      split
      · exact hfits
      case isFalse hne =>
        obtain ⟨n, rfl⟩ : ∃ k, n = k + 1 := ⟨n - 1, by simp at hfits; omega⟩
        refine Nat.succ_le_succ (ih hrest (fun hnone => ?_) (Nat.le_of_succ_le_succ hfits))
        refine Nat.lt_of_succ_lt_succ (hroom ?_)
        rw [lookup_cons, beq_false_of_ne hne]
        exact hnone

theorem upsertEntries_of_gt (h : ∀ x ∈ l, x.1 < k) : upsertEntries k f l = l ++ [(k, f none)] := by
  induction l with
  | nil => rfl
  | cons y rest ih =>
    have hy := h y mem_cons_self
    simp only [upsertEntries]
    rw [if_neg (lt_asymm hy), if_neg (ne_of_gt hy), ih fun x hx => h x (mem_cons_of_mem _ hx)]
    rfl

theorem entries_foldl_upsert {β : Type} {key : β → κ} {val : β → α} {l : List β}
    (hl : l.Pairwise fun b c => key b < key c) (hm : ∀ x ∈ m.entries, ∀ b ∈ l, x.1 < key b) :
    (l.foldl (fun m b => m.upsert (key b) fun _ => val b) m).entries =
      m.entries ++ l.map fun b => (key b, val b) := by
  induction l generalizing m with
  | nil => exact (append_nil _).symm
  | cons b l ih =>
    obtain ⟨hb, hl⟩ := pairwise_cons.mp hl
    have hput : (m.upsert (key b) fun _ => val b).entries = m.entries ++ [(key b, val b)] :=
      upsertEntries_of_gt fun x hx => hm x hx b mem_cons_self
    rw [foldl_cons, ih hl, hput, append_assoc]
    · rfl
    · intro x hx c hc
      rw [hput] at hx
      obtain hx | hx := mem_append.mp hx
      · exact hm x hx c (mem_cons_of_mem _ hc)
      · obtain rfl := mem_singleton.mp hx
        exact hb c hc

/-- The map of a list of entries; of two entries with one key the later stays. -/
def ofList (l : List (κ × α)) : SortedMap κ α := l.foldl (fun m x => m.insert x.1 x.2) empty

theorem ofList_entries (m : SortedMap κ α) : ofList m.entries = m := by
  have hentries : (ofList m.entries).entries = m.entries := by
    refine (entries_foldl_upsert m.sorted fun x hx => absurd hx not_mem_nil).trans ?_
    exact (nil_append _).trans (map_id _)
  exact ext_get? fun k => congrArg (List.lookup k) hentries

end SortedMap

end Iggy.Lib
