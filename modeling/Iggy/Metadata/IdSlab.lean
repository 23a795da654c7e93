import Mathlib.Data.List.Basic
import Mathlib.Data.List.Induction

/-!
# The key-stable arena

`metadata/src/stm/id_slab.rs`: values under stable keys, a new one under the lowest free key. The
length and the set of free keys the source keeps beside the entries are derived from them
(id_slab.rs:38-49), so the model is the entries alone.
-/

namespace Iggy

open List

structure IdSlab (T : Type) where
  entries : List (Option T)
  deriving DecidableEq

namespace IdSlab

variable {T : Type}

def new : IdSlab T := ⟨[]⟩

variable (s : IdSlab T)

def get (key : Nat) : Option T := (s.entries[key]?).join

def vacantKey : Nat := s.entries.findIdx Option.isNone

/-- `insert`: at the vacant key, which is one past the end when no slot is free. -/
def insert (value : T) : IdSlab T :=
  if s.vacantKey < s.entries.length then ⟨s.entries.set s.vacantKey (some value)⟩
  else ⟨s.entries ++ [some value]⟩

/-- `try_remove`: the slot stays, unoccupied. -/
def remove (key : Nat) : IdSlab T := ⟨s.entries.set key none⟩

def map (f : T → T) : IdSlab T := ⟨s.entries.map (Option.map f)⟩

def modify (key : Nat) (f : T → T) : IdSlab T :=
  ⟨s.entries.modify key (Option.map f)⟩

/-- The occupied entries, ascending by key. -/
def iter : List (Nat × T) :=
  s.entries.zipIdx.filterMap fun (slot, key) => slot.map fun value => (key, value)

def isEmpty : Bool := s.entries.all Option.isNone

variable {s : IdSlab T} {key k : Nat} {value : T}

theorem get_insert :
    (s.insert value).get k = if k = s.vacantKey then some value else s.get k := by
  unfold insert get
  split
  case isTrue hlt =>
    rw [getElem?_set]
    simp only [eq_comm, if_pos hlt]
    split <;> rfl
  case isFalse hge =>
    have hlen : s.vacantKey = s.entries.length :=
      Nat.le_antisymm findIdx_le_length (Nat.le_of_not_lt hge)
    rw [hlen, getElem?_append]
    split
    case isTrue hlt => rw [if_neg (Nat.ne_of_lt hlt)]
    case isFalse hout =>
      rw [getElem?_singleton, getElem?_eq_none (Nat.le_of_not_lt hout)]
      split <;> split <;> first | rfl | omega

theorem get_remove : (s.remove key).get k = if k = key then none else s.get k := by
  unfold remove get
  rw [getElem?_set]
  split
  · split <;> simp_all
  · simp_all [eq_comm]

@[simp] theorem get_map (f : T → T) : (s.map f).get k = (s.get k).map f := by
  unfold map get
  rw [getElem?_map]
  cases s.entries[k]? <;> rfl

theorem get_modify (f : T → T) :
    (s.modify key f).get k = if k = key then (s.get k).map f else s.get k := by
  unfold modify get
  rw [getElem?_modify]
  cases s.entries[k]? <;> split <;> simp_all [eq_comm]

theorem mem_iter : (key, value) ∈ s.iter ↔ s.get key = some value := by
  unfold iter get
  simp only [mem_filterMap, Prod.exists, mem_zipIdx_iff_getElem?, Option.map_eq_some_iff,
    Prod.mk.injEq]
  constructor
  · rintro ⟨slot, key', hslot, value', rfl, rfl, rfl⟩
    rw [hslot]; rfl
  · intro h
    exact ⟨some value, key, Option.join_eq_some_iff.mp h, value, rfl, rfl, rfl⟩

theorem get_of_isEmpty (h : s.isEmpty = true) (key : Nat) : s.get key = none := by
  unfold isEmpty at h
  unfold get
  cases hslot : s.entries[key]? with
  | none => rfl
  | some slot =>
    have hnone := all_eq_true.mp h slot (mem_of_getElem? hslot)
    rw [Option.isNone_iff_eq_none.mp hnone]; rfl

end IdSlab

end Iggy
