import Iggy.Consensus.MergeSafe

/-!
# The merge when senders may have lost ops they acknowledged

A sender with `untrusted_log` acknowledged prepares before writing them and then restarted
(dvc_merge.rs:443-464). `merge_view_change` reads such votes only when every replica reported,
and then without absence nacks, so a short head of an untrusted replica proves nothing.

A replication quorum then keeps its ops although its untrusted members lost them. Two
situations are outside of that guarantee:

* the rule for trusted senders starts at the commit point *they* report. Between it and a
  higher commit an untrusted sender reports, the trusted votes alone decide;
* a header without a body above the sender's commit counts as a nack (dvc_merge.rs:269-273),
  for which the source argues that "a prepare is journaled before it is acked". An untrusted
  sender did not journal first, so such a slot is no proof, yet it is counted.
-/

namespace Iggy

open DvcQuorumArray

/-- What the votes say about op `j` when a replication quorum `A` acknowledged everything up to `k`
but its untrusted members may have lost it. `bodyless` says which untrusted votes may hold the
header of `j` without its body. -/
structure LossyQuorum (q : DvcQuorumArray) (A : Finset (Fin replicasMax)) (c : Nat → Nat)
    (bodyless : StoredDvc → Prop) (k j : Nat) : Prop where
  trusted : ∀ d ∈ q.dvcIter, d.replica ∈ A → d.untrustedLog = false →
    k ≤ d.op ∧ d.HoldsBody j (c j)
  trusted_reported : ∃ d ∈ q.dvcIter, d.replica ∈ A ∧ d.untrustedLog = false
  untrusted : ∀ d ∈ q.dvcIter, d.replica ∈ A → d.untrustedLog = true →
    d.op < j ∨ d.Abstains j ∨ d.HoldsBody j (c j) ∨ (d.HoldsHeader j (c j) ∧ bodyless d)
  vouched : Vouched q j (c j) ∧ Vouched (trustedOnly q) j (c j)
  reached : Reached q k ∧ Reached (trustedOnly q) k

instance (q : DvcQuorumArray) (A : Finset (Fin replicasMax)) (c : Nat → Nat)
    (bodyless : StoredDvc → Prop) [DecidablePred bodyless] (k j : Nat) :
    Decidable (LossyQuorum q A c bodyless k j) :=
  decidable_of_iff
    ((∀ d ∈ q.dvcIter, d.replica ∈ A → d.untrustedLog = false → k ≤ d.op ∧ d.HoldsBody j (c j)) ∧
      (∃ d ∈ q.dvcIter, d.replica ∈ A ∧ d.untrustedLog = false) ∧
      (∀ d ∈ q.dvcIter, d.replica ∈ A → d.untrustedLog = true → d.op < j ∨ d.Abstains j ∨
        d.HoldsBody j (c j) ∨ (d.HoldsHeader j (c j) ∧ bodyless d)) ∧
      (Vouched q j (c j) ∧ Vouched (trustedOnly q) j (c j)) ∧
      (Reached q k ∧ Reached (trustedOnly q) k))
    ⟨fun ⟨h1, h2, h3, h4, h5⟩ => ⟨h1, h2, h3, h4, h5⟩,
      fun ⟨h1, h2, h3, h4, h5⟩ => ⟨h1, h2, h3, h4, h5⟩⟩

/-- The commit point of the votes that the first rule which may decide reads. -/
def mergeFloor (n : Nat) (q : DvcQuorumArray) : Nat :=
  if quorumViewChange n ≤ trustedCount q then mergeCommitMax (trustedOnly q) prepareQueueCeiling
  else mergeCommitMax q prepareQueueCeiling

theorem foldl_max_le_iff {f : StoredDvc → Nat} (l : List StoredDvc) (a m : Nat) :
    l.foldl (fun acc d => max acc (f d)) a ≤ m ↔ a ≤ m ∧ ∀ d ∈ l, f d ≤ m := by
  induction l generalizing a with
  | nil => simp
  | cons d l ih => simp [ih, and_assoc]

theorem mergeCommitMax_le_iff {q : DvcQuorumArray} {ceiling m : Nat} :
    mergeCommitMax q ceiling ≤ m ↔ ∀ d ∈ q.dvcIter, commitBound ceiling d ≤ m := by
  simp [mergeCommitMax, foldl_max_le_iff]

theorem mergeCommitMax_trustedOnly_le (q : DvcQuorumArray) (ceiling : Nat) :
    mergeCommitMax (trustedOnly q) ceiling ≤ mergeCommitMax q ceiling :=
  mergeCommitMax_le_iff.mpr fun d hd =>
    mergeCommitMax_le_iff.mp le_rfl d (mem_dvcIter_trustedOnly.mp hd).1

theorem mergeFloor_le (n : Nat) (q : DvcQuorumArray) :
    mergeFloor n q ≤ mergeCommitMax q prepareQueueCeiling := by
  unfold mergeFloor
  split_ifs
  · exact mergeCommitMax_trustedOnly_le ..
  · exact le_rfl

theorem fromCluster_trustedOnly {q : DvcQuorumArray} {n : Nat} (h : q.FromCluster n) :
    (trustedOnly q).FromCluster n := fun i hi => by
  rw [trustedOnly_slot, h i hi]
  rfl

namespace LossyQuorum

variable {q : DvcQuorumArray} {A : Finset (Fin replicasMax)} {c : Nat → Nat} {k j : Nat}

theorem backed_trustedOnly {bodyless : StoredDvc → Prop} (h : LossyQuorum q A c bodyless k j)
    (hj : j ≤ k) (absence : Bool) : Backed (trustedOnly q) A c absence j where
  vouched := h.vouched.2
  reached := let ⟨d, hd, hmax, hle⟩ := h.reached.2; ⟨d, hd, hmax, hj.trans hle⟩
  safe d hd hdA :=
    let ⟨hmem, ht⟩ := mem_dvcIter_trustedOnly.mp hd
    .inr (.inr (.inl (h.trusted d hmem hdA ht).2))

/-- A lost op is not a nack: absence does not count, and a header without a body is let through only
at or below the sender's commit. -/
theorem backed_all (h : LossyQuorum q A c (fun d => j ≤ d.commit) k j) (hj : j ≤ k) :
    Backed q A c false j where
  vouched := h.vouched.1
  reached := let ⟨d, hd, hmax, hle⟩ := h.reached.1; ⟨d, hd, hmax, hj.trans hle⟩
  safe d hd hdA := by
    cases ht : d.untrustedLog with
    | false => exact .inr (.inr (.inl (h.trusted d hd hdA ht).2))
    | true =>
      rcases h.untrusted d hd hdA ht with hlt | hrest
      · exact .inl ⟨hlt, rfl⟩
      · exact .inr hrest

end LossyQuorum

/-- **Untrusted senders.** A replication quorum acknowledged the prepares with checksums `c`;
its trusted members still serve them, and its untrusted members lost them, abstain on them,
serve them, or hold a committed header without the body. Then no view starts with a head
below `k`. -/
theorem merge_keeps_ops_lost_by_untrusted (n k : Nat) (c : Nat → Nat) (q : DvcQuorumArray)
    (hq : q.FromCluster n) (A : Finset (Fin replicasMax)) (hA : ∀ r ∈ A, r.val < n)
    (hcard : quorumReplication n ≤ A.card)
    (hlossy : ∀ j, max (mergeFloor n q) 1 ≤ j → j ≤ k →
      LossyQuorum q A c (fun d => j ≤ d.commit) k j) :
    ∀ log, mergeViewChange q (mergeQuorums n) = .ready log → k ≤ log.opHead := by
  intro log hready
  rcases Nat.eq_zero_or_pos k with rfl | hk
  · exact Nat.zero_le _
  rcases mergeViewChange_ready hready with ⟨hquorum, h⟩ | h
  · have hfloor : mergeFloor n q = mergeCommitMax (trustedOnly q) prepareQueueCeiling :=
      if_pos hquorum
    refine (mergeDvcQuorum_keeps (c := c) rfl hk (fromCluster_trustedOnly hq) hA hcard ?_ h).1
    exact fun j h1 h2 => (hlossy j (hfloor ▸ h1) h2).backed_trustedOnly h2 _
  · have hfloor := mergeFloor_le n q
    refine (mergeDvcQuorum_keeps (c := c) rfl hk hq hA hcard ?_ h).1
    intro j h1 h2
    change max (mergeCommitMax q prepareQueueCeiling) 1 ≤ j at h1
    exact (hlossy j (by omega) h2).backed_all h2

/-! ## Concrete votes -/

variable (replica : Fin replicasMax)

/-- Serves ops 3 and 2 and nacks op 1; its own commit point is 0. -/
def gapVote : StoredDvc :=
  ⟨replica, 0, 3, 0, ⟨[sampleHeader 3, sampleHeader 2, dvcBlank 1], 4, 3, by decide, by decide,
    by decide⟩, false⟩

/-- The same log on an untrusted replica that knows op 2 committed. -/
def committedVote : StoredDvc :=
  ⟨replica, 0, 3, 2, ⟨[sampleHeader 3, sampleHeader 2], 0, 3, by decide, by decide, by decide⟩,
    true⟩

/-- Holds the header of op 1 without its body: only the adopted view's headers survived the restart.
-/
def headerOnlyVote : StoredDvc :=
  ⟨replica, 1, 1, 0, ⟨[sampleHeader 1], 0, 0, sample_len_le, sample_none_lt, sample_none_lt⟩,
    true⟩

/-- Behind by a view and never prepared op 1. -/
def nackingVote : StoredDvc :=
  ⟨replica, 0, 1, 0, ⟨[dvcBlank 1], 1, 0, by decide, by decide, by decide⟩, true⟩

/-- Serves op 1 from the newest view. -/
def servingVote : StoredDvc :=
  ⟨replica, 1, 1, 0, ⟨[sampleHeader 1], 0, 1, sample_len_le, sample_none_lt, sample_one_lt⟩,
    false⟩

/-- Restarted with nothing. -/
def lostVote : StoredDvc := ⟨replica, 0, 0, 0, .empty, true⟩

def quorumOf (votes : List StoredDvc) : DvcQuorumArray :=
  votes.foldl DvcQuorumArray.seat DvcQuorumArray.empty

/-- Replica 1 acknowledged op 1 and lost it. -/
def lossyQuorum : DvcQuorumArray := quorumOf [servingVote 0, lostVote 1, lostVote 2]

theorem merge_keeps_ops_lost_by_untrusted_sample : ∃ log,
    mergeViewChange lossyQuorum (mergeQuorums 3) = .ready log ∧ 1 ≤ log.opHead := by
  have hready : mergeViewChange lossyQuorum (mergeQuorums 3) =
      .ready ⟨1, 0, [sampleHeader 1], []⟩ := by decide
  refine ⟨_, hready, merge_keeps_ops_lost_by_untrusted 3 1 (100 + ·) lossyQuorum (by decide) {0, 1}
    (by decide) (by decide) (fun j h1 h2 => ?_) _ hready⟩
  obtain rfl : j = 1 := by omega
  decide

def gapQuorum : DvcQuorumArray := quorumOf [gapVote 0, gapVote 1, committedVote 2]

def headerOnlyQuorum : DvcQuorumArray := quorumOf [servingVote 0, headerOnlyVote 1, nackingVote 2]

/-- Asking only for the ops at or above `merge_commit_max` of *all* votes, or letting an untrusted
member of the quorum keep a header without its body, loses the op: the first quorum starts a view
with an empty log although replicas 0 and 1 serve ops 2 and 3, the second although they acknowledged
op 1. -/
theorem merge_drops_lossy_op :
    (∀ j, max (mergeCommitMax gapQuorum prepareQueueCeiling) 1 ≤ j → j ≤ 3 →
        LossyQuorum gapQuorum {0, 1} (100 + ·) (fun _ => True) 3 j) ∧
      (∃ log, mergeViewChange gapQuorum (mergeQuorums 3) = .ready log ∧ log.opHead < 3) ∧
      (∀ j, max (mergeCommitMax headerOnlyQuorum prepareQueueCeiling) 1 ≤ j → j ≤ 1 →
        LossyQuorum headerOnlyQuorum {0, 1} (100 + ·) (fun _ => True) 1 j) ∧
      ∃ log, mergeViewChange headerOnlyQuorum (mergeQuorums 3) = .ready log ∧ log.opHead < 1 := by
  refine ⟨fun j h1 h2 => ?_, ⟨⟨0, 0, [], []⟩, by decide, by decide⟩, fun j h1 h2 => ?_,
    ⟨⟨0, 0, [], []⟩, by decide, by decide⟩⟩
  · have hC : mergeCommitMax gapQuorum prepareQueueCeiling = 2 := by decide
    have hj : j = 2 ∨ j = 3 := by omega
    rcases hj with rfl | rfl <;> decide
  · obtain rfl : j = 1 := by omega
    decide

end Iggy
