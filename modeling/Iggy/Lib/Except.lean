import Mathlib.Tactic.Common

/-!
# Checked steps

Fallible code is a chain of checks and updates in `Except`. The lemmas turn "the chain succeeded"
into the facts its steps established.
-/

namespace Iggy.Lib

variable {ε α β : Type}

/-- Fail with `e` unless `p` holds. -/
def require (p : Prop) [Decidable p] (e : ε) : Except ε Unit := if p then .ok () else .error e

@[simp] theorem require_eq_ok {p : Prop} [Decidable p] {e : ε} {u : Unit} :
    require p e = .ok u ↔ p := by
  unfold require
  split_ifs with h <;> simp [h]

variable {x : Except ε α} {b : β}

@[simp] theorem bind_eq_ok {f : α → Except ε β} :
    (x >>= f) = .ok b ↔ ∃ a, x = .ok a ∧ f a = .ok b := by
  cases x with
  | error e =>
    constructor
    · intro h
      nomatch h
    · rintro ⟨a, h, -⟩
      nomatch h
  | ok a =>
    constructor
    · intro h
      exact ⟨a, rfl, h⟩
    · rintro ⟨a', h, hf⟩
      cases h
      exact hf

theorem ok_bind (a : α) (f : α → Except ε β) : (Except.ok a >>= f) = f a := rfl

theorem map_eq_ok {f : α → β} : x.map f = .ok b ↔ ∃ a, x = .ok a ∧ f a = b := by
  cases x with
  | error e => simp [Except.map]
  | ok a => simp [Except.map]

theorem toOption_eq_some {a : α} : x.toOption = some a ↔ x = .ok a := by
  cases x with
  | error e => simp [Except.toOption]
  | ok b => simp [Except.toOption]

theorem mapError_eq_ok {ε' : Type*} {f : ε → ε'} {a : α} : x.mapError f = .ok a ↔ x = .ok a := by
  cases x <;> simp [Except.mapError]

theorem foldlM_invariant {f : β → α → Except ε β} (P : β → Prop) {l : List α} {b' : β}
    (hstep : ∀ b b', ∀ a ∈ l, P b → f b a = .ok b' → P b') (hb : P b) (h : l.foldlM f b = .ok b') :
    P b' := by
  induction l generalizing b with
  | nil =>
    cases h
    exact hb
  | cons a l ih =>
    rw [List.foldlM_cons, bind_eq_ok] at h
    obtain ⟨c, hc, hrest⟩ := h
    exact ih (fun b b' x hx => hstep b b' x (List.mem_cons_of_mem _ hx))
      (hstep b c a List.mem_cons_self hb hc) hrest

theorem foldlM_some_invariant {f : β → α → Option β} (P : β → Prop) {l : List α} {b' : β}
    (hstep : ∀ b b', ∀ a ∈ l, P b → f b a = some b' → P b') (hb : P b)
    (h : l.foldlM f b = some b') : P b' := by
  induction l generalizing b with
  | nil => exact Option.some.inj h ▸ hb
  | cons a l ih =>
    rw [List.foldlM_cons, Option.bind_eq_bind, Option.bind_eq_some_iff] at h
    obtain ⟨c, hc, hrest⟩ := h
    exact ih (fun b b' x hx => hstep b b' x (List.mem_cons_of_mem _ hx))
      (hstep b c a List.mem_cons_self hb hc) hrest

end Iggy.Lib
