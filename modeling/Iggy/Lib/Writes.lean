import Mathlib.Data.List.Induction
import Mathlib.Logic.Function.Basic

/-!
# A table after a list of writes

What a key holds after the writes is the last write to it, so it depends on them alone where they
touch the key and on the old table alone where they do not.
-/

namespace Iggy.Lib

open List Function

variable {κ β γ : Type} [DecidableEq κ]

/-- The table after the writes, first to last. -/
def writeAll (ws : List (κ × β)) (f : κ → β) : κ → β :=
  ws.foldl (fun f w => update f w.1 w.2) f

variable {ws : List (κ × β)} {f g : κ → β} {k : κ}

theorem writeAll_cons (w : κ × β) : writeAll (w :: ws) f = writeAll ws (update f w.1 w.2) := rfl

@[simp] theorem writeAll_concat (w : κ × β) :
    writeAll (ws ++ [w]) f = update (writeAll ws f) w.1 w.2 := by
  simp [writeAll, foldl_append]

theorem writeAll_of_notMem (h : k ∉ ws.map Prod.fst) : writeAll ws f k = f k := by
  induction ws generalizing f with
  | nil => rfl
  | cons w ws ih =>
    obtain ⟨hw, hws⟩ := not_or.mp (mem_cons.not.mp h)
    rw [writeAll_cons, ih hws, update_of_ne hw]

theorem writeAll_mem (h : k ∈ ws.map Prod.fst) : (k, writeAll ws f k) ∈ ws := by
  induction ws using List.reverseRecOn with
  | nil => exact nomatch h
  | append_singleton ws w ih =>
    rw [writeAll_concat]
    by_cases hk : k = w.1
    · subst hk
      simp
    · have hmem : k ∈ ws.map Prod.fst := by simpa [hk] using h
      rw [update_of_ne hk]
      exact mem_append_left _ (ih hmem)

theorem writeAll_congr (h : k ∈ ws.map Prod.fst) : writeAll ws f k = writeAll ws g k := by
  induction ws using List.reverseRecOn with
  | nil => exact nomatch h
  | append_singleton ws w ih =>
    rw [writeAll_concat, writeAll_concat]
    by_cases hk : k = w.1
    · subst hk
      simp
    · rw [update_of_ne hk, update_of_ne hk, ih (by simpa [hk] using h)]

theorem map_writeAll (p : β → γ) :
    p (writeAll ws f k) = writeAll (ws.map fun w => (w.1, p w.2)) (fun k => p (f k)) k := by
  induction ws using List.reverseRecOn with
  | nil => rfl
  | append_singleton ws w ih =>
    rw [map_append, map_singleton, writeAll_concat, writeAll_concat]
    by_cases hk : k = w.1
    · subst hk
      simp
    · rw [update_of_ne hk, update_of_ne hk, ih]

end Iggy.Lib
