import Iggy.Wire.Header
import Mathlib.Data.Finset.Card
import Mathlib.Data.List.Chain

/-!
# The prepare pipeline: `LocalPipeline`

The prepare queue holds the primary's in-flight prepares, oldest first. `push` asserts that each one
follows the previous by op number and hash chain and both ends only pop, so the queue is a
consecutive run, which is a field of `LocalPipeline`. `message_by_op` relies on it.

Line numbers are of `consensus/src/impls.rs`.
-/

namespace Iggy

open List

/-- `PipelineEntry` (225-239) without the reply channel of the waiting client. -/
structure PipelineEntry where
  header : PrepareHeader
  okFromReplicas : Finset Nat := ∅
  okQuorumReceived : Bool := false

namespace PipelineEntry

variable (e : PipelineEntry)

/-- `add_ack` (297-300). -/
def addAck (replica : Nat) : PipelineEntry :=
  { e with okFromReplicas := insert replica e.okFromReplicas }

/-- `has_ack` (304-306). -/
def hasAck (replica : Nat) : Bool := replica ∈ e.okFromReplicas

/-- `ack_count` (310-312). -/
def ackCount : Nat := e.okFromReplicas.card

end PipelineEntry

/-- What `push` asserts between neighbours (683-700). -/
def Follows (prev next : PrepareHeader) : Prop := next.op = prev.op + 1 ∧ next.parent = prev.checksum

instance (prev next : PrepareHeader) : Decidable (Follows prev next) :=
  inferInstanceAs (Decidable (_ ∧ _))

/-- The prepare queue of `LocalPipeline`; requests waiting for a slot are not modelled. -/
structure LocalPipeline where
  entries : List PipelineEntry
  run : (entries.map (·.header)).IsChain Follows

namespace LocalPipeline

def empty : LocalPipeline := ⟨[], by simp⟩

variable (p : LocalPipeline)

/-- `push` (677-704); `none` where it panics. -/
def push (prepareQueueMax : Nat) (e : PipelineEntry) : Option LocalPipeline :=
  if p.entries.length < prepareQueueMax then
    if h : ∀ tail ∈ (p.entries.map (·.header)).getLast?, Follows tail e.header then
      some ⟨p.entries ++ [e], by
        rw [map_append, isChain_append]
        exact ⟨p.run, by simp, fun x hx y hy => by simp at hy; exact hy ▸ h x hx⟩⟩
    else none
  else none

/-- `pop_message` (713-715). -/
def popMessage : LocalPipeline where
  entries := p.entries.tail
  run := by
    rw [map_tail]
    exact p.run.tail

/-- `remove_prepare_tail` (737-743): the queue without its newest prepare, if it is that one. -/
def removePrepareTail (op checksum : Nat) : Option LocalPipeline :=
  match p.entries.getLast? with
  | none => none
  | some tail =>
    if tail.header.op ≠ op ∨ tail.header.checksum ≠ checksum then none
    else some ⟨p.entries.dropLast, by
      rw [map_dropLast]
      exact p.run.dropLast⟩

/-- `message_by_op` (776-785). -/
def messageByOp (op : Nat) : Option PipelineEntry :=
  match p.entries.head? with
  | none => none
  | some head => if op < head.header.op then none else p.entries[op - head.header.op]?

/-- A write through `message_by_op_mut` (791-801) that keeps the header. -/
def updateByOp (op : Nat) (f : PipelineEntry → PipelineEntry) (hf : ∀ e, (f e).header = e.header) :
    LocalPipeline where
  entries := p.entries.map fun e => if e.header.op = op then f e else e
  run := by
    have h : ((p.entries.map fun e => if e.header.op = op then f e else e).map (·.header)) =
        p.entries.map (·.header) := by
      rw [map_map]
      refine map_congr_left fun e _ => ?_
      simp only [Function.comp_apply]
      split_ifs
      · exact hf e
      · rfl
    rw [h]
    exact p.run

/-! ## The queue as a map from ops -/

theorem op_getElem {i j : Nat} {a b : PipelineEntry} (ha : p.entries[i]? = some a)
    (hb : p.entries[j]? = some b) : a.header.op + j = b.header.op + i := by
  have hstep : ∀ (l : List PipelineEntry), (l.map (·.header)).IsChain Follows → ∀ k e h0,
      l[0]? = some h0 → l[k]? = some e → e.header.op = h0.header.op + k := by
    intro l hl k
    induction k generalizing l with
    | zero => intro e h0 h1 h2; rw [h1] at h2; cases h2; rfl
    | succ k ih =>
      intro e h0 h1 h2
      cases l with
      | nil => simp at h1
      | cons x xs =>
        cases xs with
        | nil => simp at h2
        | cons y ys =>
          simp only [map_cons, isChain_cons_cons] at hl
          simp only [getElem?_cons_zero, Option.some.injEq] at h1
          have := ih (y :: ys) (by simpa using hl.2) e y (by simp) (by simpa using h2)
          rw [this, hl.1.1, h1]
          omega
  cases h0 : p.entries[0]? with
  | none =>
    have : p.entries = [] := by simpa using h0
    simp [this] at ha
  | some e0 =>
    have h1 := hstep _ p.run i a e0 h0 ha
    have h2 := hstep _ p.run j b e0 h0 hb
    omega

variable {p : LocalPipeline}

theorem messageByOp_eq_some {op : Nat} {e : PipelineEntry} :
    p.messageByOp op = some e ↔ e ∈ p.entries ∧ e.header.op = op := by
  unfold messageByOp
  cases hh : p.entries.head? with
  | none => simp_all
  | some head =>
    have h0 : p.entries[0]? = some head := by rwa [← head?_eq_getElem?]
    constructor
    · intro h
      simp only at h
      split_ifs at h with hlt
      have := p.op_getElem h0 h
      exact ⟨mem_of_getElem? h, by omega⟩
    · rintro ⟨hmem, rfl⟩
      obtain ⟨i, hi⟩ := mem_iff_getElem?.mp hmem
      have := p.op_getElem h0 hi
      simp only [show ¬ e.header.op < head.header.op by omega, ↓reduceIte]
      rw [show e.header.op - head.header.op = i by omega]
      exact hi

theorem eq_of_op_eq {a b : PipelineEntry} (ha : a ∈ p.entries) (hb : b ∈ p.entries)
    (h : a.header.op = b.header.op) : a = b := by
  have h1 := messageByOp_eq_some.mpr ⟨ha, rfl⟩
  have h2 := messageByOp_eq_some.mpr ⟨hb, rfl⟩
  rw [h] at h1
  exact Option.some.inj (h1.symm.trans h2)

def tailOp (p : LocalPipeline) : Nat := (p.entries.getLast?.map (·.header.op)).getD 0

theorem op_le_tailOp {e : PipelineEntry} (he : e ∈ p.entries) : e.header.op ≤ p.tailOp := by
  obtain ⟨i, hi⟩ := mem_iff_getElem?.mp he
  have hlt : i < p.entries.length := (List.getElem?_eq_some_iff.mp hi).1
  have hlast : p.entries[p.entries.length - 1]? = p.entries.getLast? :=
    (getLast?_eq_getElem? ..).symm
  cases hl : p.entries.getLast? with
  | none =>
    rw [getLast?_eq_none_iff] at hl
    simp [hl] at hlt
  | some last =>
    rw [hl] at hlast
    have := p.op_getElem hi hlast
    simp only [tailOp, hl, Option.map_some, Option.getD_some]
    omega

end LocalPipeline

end Iggy
