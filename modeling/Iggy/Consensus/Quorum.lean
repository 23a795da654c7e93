import Mathlib.Algebra.GroupWithZero.Nat
import Mathlib.Data.Fintype.Basic
import Mathlib.Data.Finset.Card
import Mathlib.Data.Fintype.Card

/-!
# Quorum sizes

A replication quorum meets a view-change quorum, and a nack quorum and a replication quorum do not
fit into one cluster together. Line numbers are of `consensus/src/impls.rs`.
-/

namespace Iggy

/-- `REPLICAS_MAX` (181). -/
def replicasMax : Nat := 32

instance : NeZero replicasMax := ⟨by decide⟩

/-- `QUORUM_REPLICATION_MAX` (187). -/
def quorumReplicationMax : Nat := 3

/-- `PREPARE_QUEUE_CEILING` (202): `DVC_HEADERS_MAX - 1`. -/
def prepareQueueCeiling : Nat := 127

/-- `max_faulty` (2226). -/
def maxFaulty (n : Nat) : Nat := (n - 1) / 2

/-- `quorum_replication` (2235). -/
def quorumReplication (n : Nat) : Nat :=
  if n = 2 then 2
  else if (n + 1) / 2 < quorumReplicationMax then (n + 1) / 2 else quorumReplicationMax

/-- `quorum_view_change` (2252). -/
def quorumViewChange (n : Nat) : Nat := if n = 2 then 2 else n - quorumReplication n + 1

/-- `quorum_nack_prepare` (2267). -/
def quorumNackPrepare (n : Nat) : Nat := n - quorumReplication n + 1

variable {n : Nat}

theorem quorumReplication_eq_min (h : n ≠ 2) : quorumReplication n = min ((n + 1) / 2) 3 := by
  rw [quorumReplication, if_neg h]
  split <;> simp only [quorumReplicationMax] at * <;> omega

theorem quorumReplication_two : quorumReplication 2 = 2 := by decide

theorem quorumReplication_pos (hn : 1 ≤ n) : 1 ≤ quorumReplication n := by
  by_cases h2 : n = 2
  · simp [h2, quorumReplication_two]
  · rw [quorumReplication_eq_min h2]
    omega

theorem sub_lt_quorumNackPrepare {m : Nat} (hm : quorumReplication n ≤ m) :
    n - m < quorumNackPrepare n := by
  unfold quorumNackPrepare
  omega

end Iggy
