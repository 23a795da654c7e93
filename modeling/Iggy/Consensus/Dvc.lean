import Iggy.Wire.Header
import Iggy.Consensus.Quorum
import Mathlib.Data.List.FinRange
import Mathlib.Data.Fintype.Fin

/-!
# `DoViewChange` votes: suffixes and the quorum array

A vote carries the sender's suffix: one slot per op from its head downwards, each a prepare header
or a blank, and two bitsets, of the ops the sender never prepared (nack) and of the bodies it can
serve (present). What `DvcSuffix::new` asserts are fields of `DvcSuffix`.

Line numbers are of `consensus/src/view_change_quorum.rs`.
-/

namespace Iggy

open List Lib

/-- `dvc_blank` (52-59). -/
def dvcBlank (op : Nat) : PrepareHeader := { command := .prepare, operation := .reserved, op }

inductive DvcHeaderKind
  | blank | valid
  deriving DecidableEq

/-- `dvc_header_kind` (72-78): exact comparison against the blank. -/
def dvcHeaderKind (header : PrepareHeader) : DvcHeaderKind :=
  if header = dvcBlank header.op then .blank else .valid

theorem dvcHeaderKind_dvcBlank (op : Nat) : dvcHeaderKind (dvcBlank op) = .blank := by
  simp [dvcHeaderKind, dvcBlank]

theorem dvcHeaderKind_of_checksum {h : PrepareHeader} (hc : h.checksum ≠ 0) :
    dvcHeaderKind h = .valid := by
  rw [dvcHeaderKind, if_neg]
  intro heq
  exact hc (by rw [heq]; rfl)

/-- `DvcSuffix` with what `DvcSuffix::new` asserts (86-128). -/
structure DvcSuffix where
  headers : List PrepareHeader
  nackBitset : Nat
  presentBitset : Nat
  len_le : headers.length ≤ dvcHeadersMax
  nack_lt : nackBitset < 2 ^ headers.length
  present_lt : presentBitset < 2 ^ headers.length
  deriving DecidableEq

namespace DvcSuffix

def empty : DvcSuffix := ⟨[], 0, 0, by decide, by decide, by decide⟩

instance : Inhabited DvcSuffix := ⟨empty⟩

variable (s : DvcSuffix)

/-- `index_of` (176-179). -/
def indexOf (headOp op : Nat) : Option Nat :=
  if op ≤ headOp ∧ headOp - op < s.headers.length then some (headOp - op) else none

/-- `valid_header_at` (183-186). -/
def validHeaderAt (index : Nat) : Option PrepareHeader :=
  match s.headers[index]? with
  | some header => if dvcHeaderKind header = .valid then some header else none
  | none => none

/-- `nacks` (190-192). -/
def nacks (index : Nat) : Bool :=
  index < s.headers.length && s.nackBitset.testBit index

/-- `offers_body` (196-198). -/
def offersBody (index : Nat) : Bool :=
  index < s.headers.length && s.presentBitset.testBit index

theorem indexOf_eq_some {s : DvcSuffix} {headOp op i : Nat} :
    s.indexOf headOp op = some i ↔ op ≤ headOp ∧ i = headOp - op ∧ i < s.headers.length := by
  unfold indexOf
  split_ifs with h <;> simp <;> omega

theorem validHeaderAt_eq_some {s : DvcSuffix} {i : Nat} {h : PrepareHeader} :
    s.validHeaderAt i = some h ↔ s.headers[i]? = some h ∧ dvcHeaderKind h = .valid := by
  unfold validHeaderAt
  cases hi : s.headers[i]? with
  | none => simp
  | some x =>
    by_cases hx : dvcHeaderKind x = .valid
    · simp only [hx, ↓reduceIte, Option.some.injEq]
      exact ⟨fun e => ⟨e, e ▸ hx⟩, fun e => e.1⟩
    · simp only [hx, ↓reduceIte, reduceCtorEq, Option.some.injEq, false_iff, not_and]
      exact fun e => e ▸ hx

end DvcSuffix

/-- `StoredDvc` (204-217). `replica` indexes the quorum array, and an
index out of it would panic, so it is carried in range. -/
structure StoredDvc where
  replica : Fin replicasMax
  logView : Nat
  op : Nat
  commit : Nat
  suffix : DvcSuffix
  untrustedLog : Bool
  deriving DecidableEq

namespace StoredDvc

/-- `is_empty_vote` (223-229). -/
def isEmptyVote (d : StoredDvc) : Bool :=
  d.untrustedLog && d.logView == 0 && d.op == 0 && d.commit == 0 && d.suffix.headers.isEmpty

/-- Slot `i` carries op `op - i`, as `dvc_suffix_decode` checks and `build_dvc_suffix` builds it. -/
def Indexed (d : StoredDvc) : Prop :=
  ∀ i h, d.suffix.headers[i]? = some h → i ≤ d.op ∧ h.op = d.op - i

end StoredDvc

/-- `DvcQuorumArray` (233): one slot per replica. Every writer goes
through `dvc_record`, which seats a vote under its sender's index. -/
structure DvcQuorumArray where
  slot : Fin replicasMax → Option StoredDvc
  seated : ∀ i d, slot i = some d → d.replica = i

namespace DvcQuorumArray

def empty : DvcQuorumArray := ⟨fun _ => none, by simp⟩

variable (a : DvcQuorumArray)

def seat (dvc : StoredDvc) : DvcQuorumArray where
  slot := Function.update a.slot dvc.replica (some dvc)
  seated := by
    intro i d h
    by_cases hi : i = dvc.replica
    · subst hi
      simp only [Function.update_self, Option.some.injEq] at h
      rw [h]
    · rw [Function.update_of_ne hi] at h
      exact a.seated i d h

/-- `dvc_record` (247-257): the array and whether the entry is new. -/
def dvcRecord (dvc : StoredDvc) : DvcQuorumArray × Bool :=
  if (a.slot dvc.replica).any fun seated => !seated.isEmptyVote || dvc.isEmptyVote then
    (a, false)
  else (a.seat dvc, true)

def dvcIter : List StoredDvc := (List.finRange replicasMax).filterMap a.slot

def dvcCount : Nat :=
  ((List.finRange replicasMax).filter fun i => (a.slot i).isSome).length

/-- The handshake admits peers with ids below the replica count, and each stamps its own. -/
def FromCluster (n : Nat) : Prop := ∀ i, n ≤ i.val → a.slot i = none

instance (a : DvcQuorumArray) (n : Nat) : Decidable (a.FromCluster n) :=
  inferInstanceAs (Decidable (∀ i, n ≤ i.val → a.slot i = none))

/-! ## Counting votes -/

theorem mem_dvcIter {a : DvcQuorumArray} {d : StoredDvc} :
    d ∈ a.dvcIter ↔ a.slot d.replica = some d := by
  simp only [dvcIter, mem_filterMap, mem_finRange, true_and]
  constructor
  · rintro ⟨i, hi⟩
    rwa [a.seated i d hi]
  · exact fun h => ⟨_, h⟩

theorem countP_dvcIter (p : StoredDvc → Bool) :
    a.dvcIter.countP p = (Finset.univ.filter fun i => (a.slot i).any p).card := by
  rw [dvcIter, countP_filterMap, countP_eq_length_filter,
    ← toFinset_card_of_nodup ((nodup_finRange _).filter _)]
  congr 1
  ext i
  cases h : a.slot i <;> simp [h]

theorem length_dvcIter : a.dvcIter.length = a.dvcCount := by
  rw [← countP_true, dvcIter, countP_filterMap, dvcCount, countP_eq_length_filter]
  congr 1
  refine filter_congr fun i _ => ?_
  cases a.slot i <;> rfl

/-- Votes with a property no member of `A` has. -/
theorem countP_dvcIter_le {a : DvcQuorumArray} {n : Nat} (hc : a.FromCluster n)
    {A : Finset (Fin replicasMax)} (hA : ∀ r ∈ A, r.val < n) (p : StoredDvc → Bool)
    (hp : ∀ d ∈ a.dvcIter, d.replica ∈ A → p d = false) : a.dvcIter.countP p ≤ n - A.card := by
  rw [countP_dvcIter]
  have hsub : (Finset.univ.filter fun i => (a.slot i).any p) ⊆
      (Finset.univ.filter fun i : Fin replicasMax => i.val < n) \ A := by
    intro i hi
    simp only [Finset.mem_filter, Finset.mem_univ, true_and, Option.any_eq_true] at hi
    obtain ⟨d, hd, hpd⟩ := hi
    have hr := a.seated i d hd
    subst hr
    simp only [Finset.mem_sdiff, Finset.mem_filter, Finset.mem_univ, true_and]
    refine ⟨?_, fun hmem => ?_⟩
    · by_contra hge
      exact absurd (hc _ (not_lt.mp hge)) (by simp [hd])
    · exact absurd (hp d (mem_dvcIter.mpr hd) hmem) (by simp [hpd])
  have hAsub : A ⊆ Finset.univ.filter fun i : Fin replicasMax => i.val < n :=
    fun r hr => by simpa using hA r hr
  have hcard : (Finset.univ.filter fun i : Fin replicasMax => i.val < n).card ≤ n := by
    rw [Fin.card_filter_val_lt]
    exact min_le_right ..
  calc _ ≤ _ := Finset.card_le_card hsub
    _ = _ - A.card := Finset.card_sdiff_of_subset hAsub
    _ ≤ n - A.card := Nat.sub_le_sub_right hcard _

end DvcQuorumArray

end Iggy
