import Mathlib.Data.List.Nodup
import Mathlib.Data.List.Perm.Basic
import Mathlib.Data.List.ReduceOption
import Mathlib.Tactic.Common

/-!
# Slot arrays with unique keys

An array of optional entries in which no two share a key. The index from keys to slots is a function
of the array, so only the array is kept. `get_eq_some` turns every lookup into membership, which is
how the effect of each write on lookups is read off.
-/

namespace Iggy.Lib

open List

variable {α κ : Type} [DecidableEq κ] {key : α → κ}

structure Slots (α : Type) {κ : Type} (key : α → κ) where
  slots : List (Option α)
  unique : ((slots.reduceOption).map key).Nodup

namespace Slots

def entries (t : Slots α key) : List α := t.slots.reduceOption

def get (t : Slots α key) (k : κ) : Option α := t.entries.find? fun a => key a = k

variable {t : Slots α key} {k : κ} {a : α}

theorem get_eq_some : t.get k = some a ↔ a ∈ t.entries ∧ key a = k := by
  constructor
  · intro h
    exact ⟨mem_of_find?_eq_some h, by simpa using find?_some h⟩
  · rintro ⟨hmem, hkey⟩
    cases hf : t.get k with
    | none => exact absurd hkey (by simpa using find?_eq_none.mp hf a hmem)
    | some b =>
      have hb : b ∈ t.entries := mem_of_find?_eq_some hf
      have hbk : key b = k := by simpa using find?_some hf
      rw [inj_on_of_nodup_map t.unique hb hmem (hbk.trans hkey.symm)]

theorem get_eq_none : t.get k = none ↔ ∀ a ∈ t.entries, key a ≠ k := by
  simp [get, find?_eq_none]

/-! ## Writes -/

def map (t : Slots α key) (f : α → α) (hf : ∀ a, key (f a) = key a) : Slots α key where
  slots := t.slots.map (Option.map f)
  unique := by
    have h : ((t.slots.map (Option.map f)).reduceOption).map key =
        (t.slots.reduceOption).map key := by
      rw [reduceOption_map, map_map]
      exact map_congr_left fun a _ => hf a
    rw [h]
    exact t.unique

variable {f : α → α}

theorem get_map (hf : ∀ a, key (f a) = key a) (k : κ) : (t.map f hf).get k = (t.get k).map f := by
  ext b
  simp only [get_eq_some, Option.map_eq_some_iff, entries, map, reduceOption_map, mem_map]
  constructor
  · rintro ⟨⟨a, ha, rfl⟩, hk⟩
    exact ⟨a, ⟨ha, (hf a).symm.trans hk⟩, rfl⟩
  · rintro ⟨a, ⟨ha, hk⟩, rfl⟩
    exact ⟨⟨a, ha, rfl⟩, (hf a).trans hk⟩

def modify (t : Slots α key) (k : κ) (f : α → α) (hf : ∀ a, key (f a) = key a) : Slots α key :=
  t.map (fun a => if key a = k then f a else a) fun a => by
    split_ifs
    · exact hf a
    · rfl

theorem get_modify_self (hf : ∀ a, key (f a) = key a) :
    (t.modify k f hf).get k = (t.get k).map f := by
  rw [modify, get_map]
  cases h : t.get k with
  | none => rfl
  | some a => simp [(get_eq_some.mp h).2]

theorem get_modify_of_ne {k' : κ} (hf : ∀ a, key (f a) = key a) (hne : k' ≠ k) :
    (t.modify k f hf).get k' = t.get k' := by
  rw [modify, get_map]
  cases h : t.get k' with
  | none => rfl
  | some a =>
    have hk : key a ≠ k := by rw [(get_eq_some.mp h).2]; exact hne
    simp [hk]

theorem length_entries_modify (hf : ∀ a, key (f a) = key a) :
    (t.modify k f hf).entries.length = t.entries.length := by
  rw [modify, map, entries, reduceOption_map, length_map]
  rfl

theorem reduceOption_filter_sublist (slots : List (Option α)) (k : κ) :
    ((slots.map fun s => s.filter fun a => key a ≠ k).reduceOption).Sublist slots.reduceOption := by
  induction slots with
  | nil => exact List.Sublist.refl _
  | cons s l ih =>
    cases s with
    | none => exact ih
    | some a =>
      by_cases hk : key a = k
      · simpa [hk, Option.filter] using ih.cons a
      · simpa [hk, Option.filter] using ih

def erase (t : Slots α key) (k : κ) : Slots α key where
  slots := t.slots.map fun s => s.filter fun a => key a ≠ k
  unique := t.unique.sublist (.map key (reduceOption_filter_sublist t.slots k))

theorem length_entries_erase_le : (t.erase k).entries.length ≤ t.entries.length :=
  (reduceOption_filter_sublist t.slots k).length_le

theorem get_erase (k' : κ) :
    (t.erase k).get k' = if k' = k then none else t.get k' := by
  ext b
  have hmem : b ∈ (t.erase k).entries ↔ b ∈ t.entries ∧ key b ≠ k := by
    simp only [entries, erase, reduceOption_mem_iff, mem_map, Option.filter_eq_some_iff,
      decide_eq_true_eq]
    constructor
    · rintro ⟨s, hs, hb, hne⟩
      exact ⟨hb ▸ hs, hne⟩
    · rintro ⟨hs, hne⟩
      exact ⟨some b, hs, rfl, hne⟩
  rw [get_eq_some, hmem]
  by_cases hk : k' = k
  · rw [if_pos hk]
    constructor
    · rintro ⟨⟨-, hne⟩, hkey⟩
      exact absurd (hkey.trans hk) hne
    · intro h
      cases h
  · rw [if_neg hk, get_eq_some]
    constructor
    · rintro ⟨⟨hb, -⟩, hkey⟩
      exact ⟨hb, hkey⟩
    · rintro ⟨hb, hkey⟩
      exact ⟨⟨hb, fun h => hk (hkey.symm.trans h)⟩, hkey⟩

theorem reduceOption_map_some (l : List α) : (l.map some).reduceOption = l := by
  induction l with
  | nil => rfl
  | cons a l ih => rw [map_cons, reduceOption_cons_of_some, ih]

/-! ## Taking a free slot -/

/-- Put `a` in the lowest free slot, or in a new one at the end. -/
def fill : List (Option α) → α → List (Option α)
  | [], a => [some a]
  | none :: l, a => some a :: l
  | some b :: l, a => some b :: fill l a

theorem reduceOption_fill (l : List (Option α)) (a : α) :
    (fill l a).reduceOption.Perm (a :: l.reduceOption) := by
  induction l with
  | nil => exact List.Perm.refl _
  | cons s l ih =>
    cases s with
    | none => exact List.Perm.refl _
    | some b => exact (ih.cons b).trans (List.Perm.swap a b _)

/-- Add an entry under a key no entry has. -/
def insert (t : Slots α key) (a : α) (h : t.get (key a) = none) : Slots α key where
  slots := fill t.slots a
  unique := by
    rw [((reduceOption_fill t.slots a).map key).nodup_iff, map_cons, nodup_cons]
    refine ⟨fun hmem => ?_, t.unique⟩
    obtain ⟨b, hb, hk⟩ := mem_map.mp hmem
    exact get_eq_none.mp h b hb hk

theorem length_entries_insert (h : t.get (key a) = none) :
    (t.insert a h).entries.length = t.entries.length + 1 :=
  (reduceOption_fill t.slots a).length_eq

theorem get_insert (h : t.get (key a) = none) (k : κ) :
    (t.insert a h).get k = if key a = k then some a else t.get k := by
  have hmem : ∀ b, b ∈ (t.insert a h).entries ↔ b = a ∨ b ∈ t.entries := by
    intro b
    rw [entries, insert, (reduceOption_fill t.slots a).mem_iff, mem_cons]
    rfl
  split_ifs with hk
  · exact get_eq_some.mpr ⟨(hmem a).mpr (.inl rfl), hk⟩
  · ext b
    rw [get_eq_some, get_eq_some, hmem]
    constructor
    · rintro ⟨rfl | hb, hkey⟩
      · exact absurd hkey hk
      · exact ⟨hb, hkey⟩
    · rintro ⟨hb, hkey⟩
      exact ⟨.inr hb, hkey⟩

/-! ## Two arrays side by side -/

/-- Slot by slot, both are free or hold entries related by `R`; when `R` keeps keys, every lookup
and every write agrees. -/
def Rel (R : α → α → Prop) (t t' : Slots α key) : Prop :=
  List.Forall₂ (Option.Rel R) t.slots t'.slots

section Rel

variable {R R' : α → α → Prop} {t t' : Slots α key}

theorem rel_cases {x y : Option α} (h : Option.Rel R x y) :
    (x = none ∧ y = none) ∨ ∃ a b, x = some a ∧ y = some b ∧ R a b := by
  cases h with
  | none => exact .inl ⟨rfl, rfl⟩
  | some hab => exact .inr ⟨_, _, rfl, rfl, hab⟩

theorem forall₂_reduceOption {l l' : List (Option α)} (h : List.Forall₂ (Option.Rel R) l l') :
    List.Forall₂ R l.reduceOption l'.reduceOption := by
  induction h with
  | nil => exact .nil
  | cons hs _ ih =>
    cases hs with
    | none => exact ih
    | some hab => exact .cons hab ih

omit [DecidableEq κ] in
theorem Rel.entries (h : Rel R t t') : List.Forall₂ R t.entries t'.entries :=
  forall₂_reduceOption h

omit [DecidableEq κ] in
theorem Rel.length_entries (h : Rel R t t') : t.entries.length = t'.entries.length :=
  h.entries.length_eq

omit [DecidableEq κ] in
theorem Rel.mem (h : Rel R t t') :
    Rel (fun a b => R a b ∧ a ∈ t.entries ∧ b ∈ t'.entries) t t' := by
  have hgen : ∀ {l l' : List (Option α)}, List.Forall₂ (Option.Rel R) l l' →
      (∀ a, some a ∈ l → a ∈ t.entries) → (∀ b, some b ∈ l' → b ∈ t'.entries) →
      List.Forall₂ (Option.Rel fun a b => R a b ∧ a ∈ t.entries ∧ b ∈ t'.entries) l l' := by
    intro l l' hl hmem hmem'
    induction hl with
    | nil => exact .nil
    | cons hs _ ih =>
      have htail := ih (fun a ha => hmem a (mem_cons_of_mem _ ha))
        fun b hb => hmem' b (mem_cons_of_mem _ hb)
      cases hs with
      | none => exact .cons .none htail
      | some hab =>
        exact .cons (.some ⟨hab, hmem _ mem_cons_self, hmem' _ mem_cons_self⟩) htail
  exact hgen h (fun a ha => reduceOption_mem_iff.mpr ha)
    fun b hb => reduceOption_mem_iff.mpr hb

omit [DecidableEq κ] in
theorem Rel.map (h : Rel R t t') {f g : α → α} (hf : ∀ a, key (f a) = key a)
    (hg : ∀ a, key (g a) = key a) (hfg : ∀ a b, R a b → R' (f a) (g b)) :
    Rel R' (t.map f hf) (t'.map g hg) := by
  refine forall₂_map_left_iff.mpr (forall₂_map_right_iff.mpr (h.imp fun s s' hs => ?_))
  cases hs with
  | none => exact .none
  | some hab => exact .some (hfg _ _ hab)

omit [DecidableEq κ] in
theorem Rel.mono (h : Rel R t t') (hR : ∀ a b, R a b → R' a b) : Rel R' t t' := by
  refine h.imp fun s s' hs => ?_
  cases hs with
  | none => exact .none
  | some hab => exact .some (hR _ _ hab)

variable (hkey : ∀ a b, R a b → key a = key b)
include hkey

theorem Rel.get (h : Rel R t t') (k : κ) : Option.Rel R (t.get k) (t'.get k) := by
  have hgen : ∀ {l l' : List α}, List.Forall₂ R l l' →
      Option.Rel R (l.find? fun a => key a = k) (l'.find? fun a => key a = k) := by
    intro l l' hl
    induction hl with
    | nil => exact .none
    | @cons a b l l' hab _ ih =>
      rw [find?_cons, find?_cons, ← hkey a b hab]
      split
      · exact .some hab
      · exact ih
  exact hgen h.entries

theorem Rel.modify (h : Rel R t t') {k : κ} {a b : α} (ha : t.get k = some a)
    (hb : t'.get k = some b) {f g : α → α} (hf : ∀ a, key (f a) = key a)
    (hg : ∀ a, key (g a) = key a) (hfg : R' (f a) (g b)) (hR : ∀ a b, R a b → R' a b) :
    Rel R' (t.modify k f hf) (t'.modify k g hg) := by
  refine h.mem.map _ _ fun x y ⟨hxy, hx, hy⟩ => ?_
  have hsame := hkey x y hxy
  by_cases hk : key x = k
  · rw [if_pos hk, if_pos (hsame ▸ hk)]
    obtain rfl : x = a := Option.some.inj ((get_eq_some.mpr ⟨hx, hk⟩).symm.trans ha)
    obtain rfl : y = b := Option.some.inj ((get_eq_some.mpr ⟨hy, hsame ▸ hk⟩).symm.trans hb)
    exact hfg
  · rw [if_neg hk, if_neg (hsame ▸ hk)]
    exact hR x y hxy

theorem Rel.erase (h : Rel R t t') (k : κ) : Rel R (t.erase k) (t'.erase k) := by
  refine forall₂_map_left_iff.mpr (forall₂_map_right_iff.mpr (h.imp fun s s' hs => ?_))
  cases hs with
  | none => exact .none
  | @some a b hab =>
    rw [Option.filter_some, Option.filter_some, ← hkey a b hab]
    split
    · exact .some hab
    · exact .none

omit hkey in
theorem Rel.insert (h : Rel R t t') {a b : α} (hab : R a b) (ha : t.get (key a) = none)
    (hb : t'.get (key b) = none) : Rel R (t.insert a ha) (t'.insert b hb) := by
  have hgen : ∀ {l l' : List (Option α)}, List.Forall₂ (Option.Rel R) l l' →
      List.Forall₂ (Option.Rel R) (fill l a) (fill l' b) := by
    intro l l' hl
    induction hl with
    | nil => exact .cons (.some hab) .nil
    | cons hs hl ih =>
      cases hs with
      | none => exact .cons (.some hab) hl
      | some hcd => exact .cons (.some hcd) ih
  exact hgen h

end Rel

/-! ## Free slots below taken ones -/

/-- No free slot lies below a taken one. -/
def Compact : List (Option α) → Prop
  | [] => True
  | none :: l => ∀ s ∈ l, s = none
  | some _ :: l => Compact l

variable {l : List (Option α)}

theorem Compact.eq_packed (h : Compact l) :
    l = l.reduceOption.map some ++ List.replicate (l.length - l.reduceOption.length) none := by
  induction l with
  | nil => rfl
  | cons s l ih =>
    cases s with
    | none =>
      have hall : l = List.replicate l.length none := eq_replicate_iff.mpr ⟨rfl, h⟩
      have hempty : l.reduceOption = [] := by
        rw [hall, reduceOption_replicate_none]
      rw [reduceOption_cons_of_none, hempty, map_nil, nil_append, length_nil,
        Nat.sub_zero, length_cons, replicate_succ, ← hall]
    | some a =>
      rw [reduceOption_cons_of_some, map_cons, cons_append, length_cons,
        length_cons, Nat.add_sub_add_right, ← ih h]

theorem exists_hole_of_not_compact (h : ¬Compact l) :
    ∃ (init : List α) (rest : List (Option α)) (a : α) (tail : List α),
      l = init.map some ++ none :: rest ∧ rest.reduceOption = a :: tail := by
  induction l with
  | nil => exact absurd trivial h
  | cons s l ih =>
    cases s with
    | none =>
      cases hrest : l.reduceOption with
      | cons a tail => exact ⟨[], l, a, tail, rfl, hrest⟩
      | nil =>
        refine absurd (fun s hs => ?_) h
        cases s with
        | none => rfl
        | some a =>
          have := reduceOption_mem_iff.mpr hs
          rw [hrest] at this
          exact absurd this not_mem_nil
    | some a =>
      obtain ⟨init, rest, b, tail, rfl, htail⟩ := ih h
      exact ⟨a :: init, rest, b, tail, rfl, htail⟩

theorem fill_hole (init : List α) (rest : List (Option α)) (a : α) :
    fill (init.map some ++ none :: rest) a = init.map some ++ some a :: rest := by
  induction init with
  | nil => rfl
  | cons b init ih => rw [map_cons, cons_append, fill, ih]; rfl

theorem length_fill (h : none ∈ l) (a : α) : (fill l a).length = l.length := by
  induction l with
  | nil => exact absurd h not_mem_nil
  | cons s l ih =>
    cases s with
    | none => rfl
    | some b =>
      have hmem : none ∈ l := by simpa using h
      rw [fill, length_cons, length_cons, ih hmem]

end Slots

end Iggy.Lib
