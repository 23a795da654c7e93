import Mathlib.Data.List.Basic

/-!
# A directory entry across crashes

A file that is only ever replaced by a rename: the running process sees the newest content, a
completed directory sync fixes it, and a crash leaves any content named since that sync. A property
of every one of `contents` is a property of the entry whatever happens next.
-/

namespace Iggy.Lib

/-- The content the last completed directory sync fixed, and the contents renamed over it since,
newest first. -/
structure CrashCell (α : Type) where
  durable : α
  pending : List α
  deriving DecidableEq

namespace CrashCell

variable {α : Type} {c : CrashCell α} {v x : α}

def fixed (v : α) : CrashCell α := ⟨v, []⟩

/-- What a reader of the running system finds. -/
def visible (c : CrashCell α) : α := c.pending.headD c.durable

/-- What a crash may leave. -/
def contents (c : CrashCell α) : List α := c.pending ++ [c.durable]

/-- A rename that no directory sync covers yet. -/
def put (c : CrashCell α) (v : α) : CrashCell α := { c with pending := v :: c.pending }

/-- A completed directory sync. -/
def sync (c : CrashCell α) : CrashCell α := fixed c.visible

@[simp] theorem visible_fixed (v : α) : (fixed v).visible = v := rfl

@[simp] theorem contents_fixed (v : α) : (fixed v).contents = [v] := rfl

@[simp] theorem visible_put : (c.put v).visible = v := rfl

@[simp] theorem visible_sync : c.sync.visible = c.visible := rfl

@[simp] theorem contents_sync : c.sync.contents = [c.visible] := rfl

@[simp] theorem mem_contents_put : x ∈ (c.put v).contents ↔ x = v ∨ x ∈ c.contents := by
  simp [contents, put]

theorem visible_mem_contents : c.visible ∈ c.contents := by
  unfold visible contents
  cases c.pending with
  | nil => exact List.mem_singleton_self _
  | cons v vs => exact List.mem_cons_self

end CrashCell

end Iggy.Lib
