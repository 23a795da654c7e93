import Iggy.Consensus.Merge

/-!
# The merge keeps every op a replication quorum still stands behind

`Vouched` is what the canonical senders report at an op, `SafeFor` that a vote cannot be read as a
nack of the prepare with checksum `c`. If a replication quorum is safe for every op from the commit
point up to `k`, the scan of `merge_dvc_quorum` cannot stop at or below `k`
(`mergeDvcQuorum_keeps`): too few replicas are left for a nack quorum.

The two rules of `merge_view_change` differ in who is safe. With trusted senders alone every member
of the quorum must still hold the op; when every replica reports and absence does not count, an
untrusted member may have lost it (MergeUntrusted.lean).
-/

namespace Iggy

open List DvcQuorumArray

namespace StoredDvc

variable (d : StoredDvc) (op c : Nat)

def Holds : Prop :=
  ∃ i h, d.suffix.indexOf d.op op = some i ∧ d.suffix.validHeaderAt i = some h ∧ h.checksum = c

/-- A blank slot that is not nacked. -/
def Abstains (op : Nat) : Prop :=
  ∃ i, d.suffix.indexOf d.op op = some i ∧ d.suffix.validHeaderAt i = none ∧
    d.suffix.nacks i = false

/-- Checksum `c` with the nack bit clear; the body may be gone. -/
def HoldsHeader : Prop :=
  ∃ i h, d.suffix.indexOf d.op op = some i ∧ d.suffix.validHeaderAt i = some h ∧
    h.checksum = c ∧ d.suffix.nacks i = false

/-- Checksum `c`, nack bit clear and present bit set. -/
def HoldsBody : Prop :=
  ∃ i h, d.suffix.indexOf d.op op = some i ∧ d.suffix.validHeaderAt i = some h ∧
    h.checksum = c ∧ d.suffix.nacks i = false ∧ d.suffix.offersBody i = true

/-- The positions on `op` that `tally_op` can never count as a nack of checksum `c`. -/
def SafeFor (absenceNacks : Bool) : Prop :=
  (d.op < op ∧ absenceNacks = false) ∨ d.Abstains op ∨ d.HoldsBody op c ∨
    (d.HoldsHeader op c ∧ op ≤ d.commit)

instance (d : StoredDvc) (op c : Nat) : Decidable (d.Holds op c) :=
  decidable_of_iff ((d.suffix.indexOf d.op op).any fun i =>
    (d.suffix.validHeaderAt i).any fun h => h.checksum = c) (by simp [Holds, Option.any_eq_true])

instance (d : StoredDvc) (op : Nat) : Decidable (d.Abstains op) :=
  decidable_of_iff ((d.suffix.indexOf d.op op).any fun i =>
    (d.suffix.validHeaderAt i).isNone && !d.suffix.nacks i) (by simp [Abstains, Option.any_eq_true])

instance (d : StoredDvc) (op c : Nat) : Decidable (d.HoldsHeader op c) :=
  decidable_of_iff ((d.suffix.indexOf d.op op).any fun i => (d.suffix.validHeaderAt i).any fun h =>
    h.checksum = c && !d.suffix.nacks i) (by simp [HoldsHeader, Option.any_eq_true])

instance (d : StoredDvc) (op c : Nat) : Decidable (d.HoldsBody op c) :=
  decidable_of_iff ((d.suffix.indexOf d.op op).any fun i => (d.suffix.validHeaderAt i).any fun h =>
    h.checksum = c && !d.suffix.nacks i && d.suffix.offersBody i)
    (by simp [HoldsBody, Option.any_eq_true, and_assoc])

end StoredDvc

variable (q : DvcQuorumArray)

/-- No vote has a `log_view` above this one's. -/
def AtMaxLogView (d : StoredDvc) : Prop :=
  ∀ d' ∈ q.dvcIter, d'.logView ≤ d.logView

/-- Every canonical sender whose head reaches `op` holds checksum `c` there or abstains. -/
def Vouched (op c : Nat) : Prop :=
  ∀ d ∈ q.dvcIter, AtMaxLogView q d → op ≤ d.op → d.Holds op c ∨ d.Abstains op

/-- Some canonical sender's head reaches `op`. -/
def Reached (op : Nat) : Prop :=
  ∃ d ∈ q.dvcIter, AtMaxLogView q d ∧ op ≤ d.op

instance (q : DvcQuorumArray) (d : StoredDvc) : Decidable (AtMaxLogView q d) :=
  inferInstanceAs (Decidable (∀ d' ∈ q.dvcIter, d'.logView ≤ d.logView))

instance (q : DvcQuorumArray) (op c : Nat) : Decidable (Vouched q op c) :=
  inferInstanceAs (Decidable (∀ d ∈ q.dvcIter, AtMaxLogView q d → op ≤ d.op →
    d.Holds op c ∨ d.Abstains op))

instance (q : DvcQuorumArray) (op : Nat) : Decidable (Reached q op) :=
  inferInstanceAs (Decidable (∃ d ∈ q.dvcIter, AtMaxLogView q d ∧ op ≤ d.op))

/-! ## One op -/

/-- What `canonical_header_at` has seen while no sender contradicted checksum `c`. -/
structure Agreed (c : Nat) (acc : CanonicalAt) : Prop where
  no_conflict : acc.conflict = false
  header : ∀ h, acc.header = some h → h.checksum = c

variable {op c : Nat} {d : StoredDvc}

theorem canonicalStep_agreed {acc : CanonicalAt} (hacc : Agreed c acc)
    (hd : op ≤ d.op → d.Holds op c ∨ d.Abstains op) :
    Agreed c (canonicalStep op acc d) ∧
      (op ≤ d.op ∨ acc.header.isSome ∨ acc.abstained →
        (canonicalStep op acc d).header.isSome ∨ (canonicalStep op acc d).abstained) := by
  unfold canonicalStep
  cases hi : d.suffix.indexOf d.op op with
  | none =>
    refine ⟨hacc, fun h => ?_⟩
    rcases h with h | h | h
    · rcases hd h with ⟨i, _, hi', _⟩ | ⟨i, hi', _⟩ <;> simp [hi] at hi'
    · exact .inl h
    · exact .inr h
  | some i =>
    have hle : op ≤ d.op := (DvcSuffix.indexOf_eq_some.mp hi).1
    simp only
    rcases hd hle with ⟨i', h, hi', hv, hc⟩ | ⟨i', hi', hv, hn⟩ <;>
      (rw [hi] at hi'; obtain rfl := Option.some.inj hi')
    · simp only [hv]
      cases hh : acc.header with
      | none => exact ⟨⟨hacc.no_conflict, by simp [hc]⟩, by simp⟩
      | some x =>
        have hx : x.checksum = h.checksum := (hacc.header x hh).trans hc.symm
        simp only [hx, ne_eq, not_true_eq_false, ↓reduceIte]
        exact ⟨hacc, fun _ => .inl (by simp [hh])⟩
    · simp only [hv, hn]
      exact ⟨⟨hacc.no_conflict, hacc.header⟩, fun _ => .inr (by simp)⟩

theorem canonicalStep_foldl_agreed (senders : List StoredDvc)
    (hs : ∀ d ∈ senders, op ≤ d.op → d.Holds op c ∨ d.Abstains op) (acc : CanonicalAt)
    (hacc : Agreed c acc) :
    Agreed c (senders.foldl (canonicalStep op) acc) ∧
      ((∃ d ∈ senders, op ≤ d.op) ∨ acc.header.isSome ∨ acc.abstained →
        (senders.foldl (canonicalStep op) acc).header.isSome ∨
          (senders.foldl (canonicalStep op) acc).abstained) := by
  induction senders generalizing acc with
  | nil => simpa using hacc
  | cons d ds ih =>
    obtain ⟨hstep, hseen⟩ := canonicalStep_agreed hacc (hs d mem_cons_self)
    obtain ⟨hfold, hfseen⟩ := ih (fun x hx => hs x (mem_cons_of_mem _ hx)) _ hstep
    refine ⟨hfold, fun h => hfseen ?_⟩
    rcases h with ⟨x, hx, hle⟩ | h
    · rcases mem_cons.mp hx with rfl | hx
      · exact .inr (hseen (.inl hle))
      · exact .inl ⟨x, hx, hle⟩
    · exact .inr (hseen (.inr h))

variable {senders : List StoredDvc}

theorem exists_sender_of_canonicalHeaderAt {h : PrepareHeader}
    (hh : (canonicalHeaderAt senders op).header = some h) :
    ∃ d ∈ senders, ∃ i, d.suffix.indexOf d.op op = some i ∧ d.suffix.validHeaderAt i = some h := by
  suffices H : ∀ acc, (senders.foldl (canonicalStep op) acc).header = some h →
      acc.header = some h ∨ ∃ d ∈ senders, ∃ i, d.suffix.indexOf d.op op = some i ∧
        d.suffix.validHeaderAt i = some h by
    simpa using H ⟨none, false, false⟩ hh
  clear hh
  induction senders with
  | nil => exact fun acc h => .inl h
  | cons d ds ih =>
    intro acc hfold
    rcases ih _ hfold with hstep | ⟨x, hx, hi⟩
    · -- the header was there before, or this sender supplied it
      unfold canonicalStep at hstep
      split at hstep
      · exact .inl hstep
      · rename_i i hi
        split at hstep
        · exact .inl hstep
        · rename_i cand hcand
          split at hstep
          · split_ifs at hstep <;> exact .inl hstep
          · simp only [Option.some.injEq] at hstep
            exact .inr ⟨d, mem_cons_self, i, hi, hstep ▸ hcand⟩
    · exact .inr ⟨x, mem_cons_of_mem _ hx, hi⟩

variable {v : Nat}

/-- A held header is not counted when its body is there or it is committed, as long as the canonical
answer agrees. -/
theorem nacksOp_held {at_ : CanonicalAt} {absence : Bool}
    (hat : ∀ h, at_.header = some h → h.checksum = c)
    (habs : at_.header = none → at_.abstained = true) {i : Nat} {h : PrepareHeader}
    (hi : d.suffix.indexOf d.op op = some i) (hv : d.suffix.validHeaderAt i = some h)
    (hc : h.checksum = c) (hn : d.suffix.nacks i = false)
    (hbody : d.suffix.offersBody i = true ∨ op ≤ d.commit) :
    nacksOp at_ v op absence d = false := by
  have hle : ¬ d.op < op := not_lt.mpr (DvcSuffix.indexOf_eq_some.mp hi).1
  have hserved : (!d.suffix.offersBody i && decide (op > d.commit)) = false := by
    rcases hbody with hb | hb
    · simp [hb]
    · simp [not_lt.mpr hb]
  simp only [nacksOp, hle, ↓reduceIte, hi, hn, Bool.false_eq_true, hv, hserved]
  cases hh : at_.header with
  | none => simp [habs hh]
  | some x => simp [hat x hh, hc]

theorem nacksOp_eq_false {at_ : CanonicalAt} {absence : Bool}
    (hat : ∀ h, at_.header = some h → h.checksum = c)
    (habs : at_.header = none → at_.abstained = true) (hd : d.SafeFor op c absence) :
    nacksOp at_ v op absence d = false := by
  rcases hd with ⟨hlt, habsence⟩ | ⟨i, hi, hv, hn⟩ | ⟨i, h, hi, hv, hc, hn, hb⟩ |
    ⟨⟨i, h, hi, hv, hc, hn⟩, hcommit⟩
  · simp [nacksOp, hlt, habsence]
  · have hle : ¬ d.op < op := not_lt.mpr (DvcSuffix.indexOf_eq_some.mp hi).1
    simp [nacksOp, hle, hi, hv, hn]
  · exact nacksOp_held hat habs hi hv hc hn (.inl hb)
  · exact nacksOp_held hat habs hi hv hc hn (.inr hcommit)

/-! ## The scan and the header walk -/

variable {q : DvcQuorumArray} {Q : MergeQuorums}

/-- It ends at the top, or right below an uncommitted op with a nack quorum. -/
theorem mergeScan_ok {commitMax top fuel head : Nat} (hop : 1 ≤ op)
    (h : mergeScan q Q senders v commitMax top fuel op = .ok head) :
    head = top ∨ (op ≤ head + 1 ∧ commitMax ≤ head ∧
      Q.nackPrepare ≤ (tallyOp q senders v (head + 1) Q.absenceNacks).nacks) := by
  induction fuel generalizing op with
  | zero => exact .inl (Except.ok.inj h).symm
  | succ fuel ih =>
    simp only [mergeScan] at h
    split_ifs at h with hnack hcommit
    · cases h
      rw [Nat.sub_add_cancel hop]
      exact .inr ⟨le_rfl, by omega, hnack⟩
    · rcases ih (by omega) h with h | ⟨h1, h2, h3⟩
      · exact .inl h
      · exact .inr ⟨by omega, h2, h3⟩

theorem mergeScan_error_ne_ready (q : DvcQuorumArray) (Q : MergeQuorums)
    (senders : List StoredDvc) (v commitMax top fuel op : Nat) (log : MergedLog) :
    mergeScan q Q senders v commitMax top fuel op ≠ .error (.ready log) := by
  induction fuel generalizing op with
  | zero => simp [mergeScan]
  | succ fuel ih =>
    simp only [mergeScan, undecided]
    split_ifs <;> first | exact ih _ | simp

variable {k : Nat}

theorem canonicalHeadersFrom_getElem {floor : Nat} {child : Option PrepareHeader}
    {hs : List PrepareHeader} (h : canonicalHeadersFrom senders floor op child = some hs)
    (hk : floor ≤ k) (hop : k ≤ op) :
    ∃ x, hs[op - k]? = some x ∧ (canonicalHeaderAt senders k).header = some x := by
  induction op generalizing child hs with
  | zero =>
    obtain rfl : k = 0 := by omega
    unfold canonicalHeadersFrom at h
    split at h <;> try contradiction
    rename_i x _ hx
    split_ifs at h <;> cases h <;> exact ⟨x, rfl, by rw [hx]⟩
  | succ op ih =>
    unfold canonicalHeadersFrom at h
    split at h <;> try contradiction
    rename_i x _ hx
    split_ifs at h with _ hfloor
    · obtain rfl : k = op + 1 := by omega
      cases h
      exact ⟨x, by simp, by rw [hx]⟩
    · simp only [Option.map_eq_some_iff] at h
      obtain ⟨tl, htl, rfl⟩ := h
      by_cases hlast : k = op + 1
      · subst hlast
        exact ⟨x, by simp, by rw [hx]⟩
      · obtain ⟨y, hy, hy'⟩ := ih htl (by omega)
        exact ⟨y, by rwa [show op + 1 - k = (op - k) + 1 by omega, getElem?_cons_succ], hy'⟩

variable {log : MergedLog}

theorem mergeDvcQuorum_ready (h : mergeDvcQuorum q Q = .ready log) :
    ∃ v, logViewCanonical q = some v ∧
      ((opHeadMax (canonicalSenders q v) (mergeCommitMax q Q.prepareQueueCeiling) = 0 ∧
          log = ⟨0, 0, [], []⟩) ∨
        (log.commitMax = mergeCommitMax q Q.prepareQueueCeiling ∧
          mergeScan q Q (canonicalSenders q v) v log.commitMax
            (opHeadMax (canonicalSenders q v) log.commitMax)
            (opHeadMax (canonicalSenders q v) log.commitMax + 1 - max log.commitMax 1)
            (max log.commitMax 1) = .ok log.opHead ∧
          canonicalHeaders (canonicalSenders q v) log.opHead log.commitMax = some log.headers ∧
          committedElsewhere q v log.headers = some log.committedElsewhere)) := by
  unfold mergeDvcQuorum at h
  split_ifs at h
  split at h
  · contradiction
  rename_i v hv
  refine ⟨v, hv, ?_⟩
  simp only at h
  split_ifs at h with h0
  · exact .inl ⟨h0, (MergeOutcome.ready.inj h).symm⟩
  · split at h
    · rename_i outcome hscan
      subst h
      -- the scan never stops with a log
      exact absurd hscan (mergeScan_error_ne_ready _ _ _ _ _ _ _ _ _)
    · rename_i opHead hscan
      split at h
      · contradiction
      rename_i headers hheaders
      split at h
      · contradiction
      · rename_i elsewhere helse
        obtain rfl := MergeOutcome.ready.inj h
        exact .inr ⟨rfl, hscan, hheaders, helse⟩

theorem mem_canonicalSenders (hv : logViewCanonical q = some v) (d : StoredDvc) :
    d ∈ canonicalSenders q v ↔ d ∈ q.dvcIter ∧ AtMaxLogView q d := by
  obtain ⟨hmem, hmax⟩ := max?_eq_some_iff.mp hv
  simp only [mem_map] at hmem hmax
  obtain ⟨top, htop, rfl⟩ := hmem
  simp only [canonicalSenders, mem_filter, beq_iff_eq, AtMaxLogView]
  constructor
  · rintro ⟨hd, hview⟩
    exact ⟨hd, fun d' hd' => hview ▸ hmax _ ⟨d', hd', rfl⟩⟩
  · rintro ⟨hd, hall⟩
    exact ⟨hd, le_antisymm (hmax _ ⟨d, hd, rfl⟩) (hall top htop)⟩

theorem le_opHeadMax (hd : d ∈ senders) (commitMax : Nat) : d.op ≤ opHeadMax senders commitMax := by
  unfold opHeadMax
  cases hm : (senders.map (·.op)).max? with
  | none => simp_all [max?_eq_none_iff]
  | some m =>
    have := (max?_eq_some_iff.mp hm).2 d.op (mem_map_of_mem hd)
    exact le_max_of_le_left this

/-- The ops the merge of `q` may discard, up to `k`. -/
structure Backed (q : DvcQuorumArray) (A : Finset (Fin replicasMax)) (c : Nat → Nat)
    (absenceNacks : Bool) (j : Nat) : Prop where
  vouched : Vouched q j (c j)
  reached : Reached q j
  safe : ∀ d ∈ q.dvcIter, d.replica ∈ A → d.SafeFor j (c j) absenceNacks

namespace Backed

variable {q : DvcQuorumArray} {A : Finset (Fin replicasMax)} {c : Nat → Nat} {absence : Bool}
  {j v n : Nat}

theorem canonical (hb : Backed q A c absence j) (hv : logViewCanonical q = some v) :
    Agreed (c j) (canonicalHeaderAt (canonicalSenders q v) j) ∧
      ((canonicalHeaderAt (canonicalSenders q v) j).header = none →
        (canonicalHeaderAt (canonicalSenders q v) j).abstained = true) := by
  obtain ⟨hagree, hseen⟩ := canonicalStep_foldl_agreed (canonicalSenders q v)
    (fun d hd => let ⟨hmem, hmax⟩ := (mem_canonicalSenders hv d).mp hd
      hb.vouched d hmem hmax) ⟨none, false, false⟩ ⟨rfl, by simp⟩
  refine ⟨hagree, fun hnone => ?_⟩
  obtain ⟨d, hd, hmax, hle⟩ := hb.reached
  have := hseen (.inl ⟨d, (mem_canonicalSenders hv d).mpr ⟨hd, hmax⟩, hle⟩)
  unfold canonicalHeaderAt at hnone ⊢
  simpa [hnone] using this

theorem nacks_lt (hb : Backed q A c absence j) (hv : logViewCanonical q = some v)
    (hq : q.FromCluster n) (hA : ∀ r ∈ A, r.val < n) (hcard : quorumReplication n ≤ A.card) :
    (tallyOp q (canonicalSenders q v) v j absence).nacks < quorumNackPrepare n := by
  obtain ⟨hagree, habs⟩ := hb.canonical hv
  refine lt_of_le_of_lt (countP_dvcIter_le hq hA _ fun d hd hdA => ?_)
    (sub_lt_quorumNackPrepare hcard)
  exact nacksOp_eq_false hagree.header habs (hb.safe d hd hdA)

end Backed

/-- **One merge.** If a replication quorum backs every op from the commit point to `k`,
`merge_dvc_quorum` keeps them, and the log it returns names the backed prepare at `k`. -/
theorem mergeDvcQuorum_keeps {n : Nat} {c : Nat → Nat}
    {A : Finset (Fin replicasMax)} (hQ : Q.nackPrepare = quorumNackPrepare n) (hk : 1 ≤ k)
    (hq : q.FromCluster n) (hA : ∀ r ∈ A, r.val < n) (hcard : quorumReplication n ≤ A.card)
    (hb : ∀ j, max (mergeCommitMax q Q.prepareQueueCeiling) 1 ≤ j → j ≤ k →
      Backed q A c Q.absenceNacks j)
    (h : mergeDvcQuorum q Q = .ready log) :
    k ≤ log.opHead ∧ (log.commitMax ≤ k → ∃ x, log.headers[log.opHead - k]? = some x ∧
      x.checksum = c k ∧ ∃ d ∈ q.dvcIter, ∃ i, d.suffix.indexOf d.op k = some i ∧
        d.suffix.validHeaderAt i = some x) := by
  obtain ⟨v, hv, ⟨h0, rfl⟩ | ⟨hcommit, hscan, hheaders, -⟩⟩ := mergeDvcQuorum_ready h
  · -- nothing was prepared: then no sender reaches `k`, and no commit is above it
    exfalso
    have hC : mergeCommitMax q Q.prepareQueueCeiling = 0 := by
      unfold opHeadMax at h0
      omega
    obtain ⟨d, hd, hmax, hle⟩ := (hb k (by omega) le_rfl).reached
    have := le_opHeadMax ((mem_canonicalSenders hv d).mpr ⟨hd, hmax⟩)
      (mergeCommitMax q Q.prepareQueueCeiling)
    omega
  rw [← hcommit] at hb
  have hhead : k ≤ log.opHead := by
    rcases mergeScan_ok (le_max_right _ _) hscan with htop | ⟨hge, hle, hnack⟩
    · by_cases hlow : k < max log.commitMax 1
      · rw [htop, opHeadMax]
        omega
      · obtain ⟨d, hd, hmax, hreach⟩ := (hb k (by omega) le_rfl).reached
        exact htop ▸ hreach.trans (le_opHeadMax ((mem_canonicalSenders hv d).mpr ⟨hd, hmax⟩) _)
    · -- stopped below `log.opHead + 1` by a nack quorum, so that op is not backed
      by_contra hlt
      have hbj := hb (log.opHead + 1) hge (by omega)
      exact absurd (hQ ▸ hnack) (not_le.mpr (hbj.nacks_lt hv hq hA hcard))
  refine ⟨hhead, fun hle => ?_⟩
  have hfloor : max log.commitMax 1 ≤ k := by omega
  rw [canonicalHeaders, if_neg (by omega)] at hheaders
  obtain ⟨x, hx, hxc⟩ := canonicalHeadersFrom_getElem hheaders hfloor hhead
  obtain ⟨d, hd, hslot⟩ := exists_sender_of_canonicalHeaderAt hxc
  exact ⟨x, hx, ((hb k hfloor le_rfl).canonical hv).1.header x hxc, d,
    ((mem_canonicalSenders hv d).mp hd).1, hslot⟩

/-! ## The two rules of `merge_view_change` -/

/-- Votes with distinct senders all take their free slots. -/
theorem foldl_dvcRecord_slot (f : Fin replicasMax → Option StoredDvc)
    (hf : ∀ i d, f i = some d → d.replica = i) (l : List (Fin replicasMax)) (hl : l.Nodup)
    (a : DvcQuorumArray) (ha : ∀ i ∈ l, a.slot i = none) (i : Fin replicasMax) :
    ((l.filterMap f).foldl (fun a dvc => (a.dvcRecord dvc).1) a).slot i =
      if i ∈ l then f i else a.slot i := by
  induction l generalizing a with
  | nil => simp
  | cons j l ih =>
    obtain ⟨hj, hnodup⟩ := nodup_cons.mp hl
    cases hfj : f j with
    | none =>
      rw [filterMap_cons_none hfj, ih hnodup a fun x hx => ha x (mem_cons_of_mem _ hx)]
      by_cases hij : i = j
      · subst hij
        simp [hj, hfj, ha i mem_cons_self]
      · simp [hij]
    | some d =>
      obtain rfl := hf j d hfj
      have hrec : (a.dvcRecord d).1 = a.seat d := by
        simp [dvcRecord, ha d.replica mem_cons_self]
      rw [filterMap_cons_some hfj, foldl_cons, hrec, ih hnodup]
      · by_cases hij : i = d.replica
        · subst hij
          simp [hj, hfj, seat]
        · simp [hij, seat]
      · intro x hx
        have hne : x ≠ d.replica := fun h => hj (h ▸ hx)
        simpa [seat, hne] using ha x (mem_cons_of_mem _ hx)

theorem trustedOnly_slot (q : DvcQuorumArray) (i : Fin replicasMax) :
    (trustedOnly q).slot i = (q.slot i).filter fun dvc => !dvc.untrustedLog := by
  rw [trustedOnly, dvcIter, filter_filterMap,
    foldl_dvcRecord_slot _ _ _ (nodup_finRange _) _ (fun _ _ => rfl) i]
  · simp
  · intro i d h
    exact q.seated i d (Option.filter_eq_some_iff.mp h).1

theorem mem_dvcIter_trustedOnly :
    d ∈ (trustedOnly q).dvcIter ↔ d ∈ q.dvcIter ∧ d.untrustedLog = false := by
  simp [mem_dvcIter, trustedOnly_slot, Option.filter_eq_some_iff]

theorem trustedOnly_eq_self (h : ∀ d ∈ q.dvcIter, d.untrustedLog = false) : trustedOnly q = q := by
  have hslot : (trustedOnly q).slot = q.slot := by
    funext i
    rw [trustedOnly_slot]
    cases hi : q.slot i with
    | none => rfl
    | some d =>
      have hd : d ∈ q.dvcIter := mem_dvcIter.mpr (by rw [q.seated i d hi, hi])
      simp [h d hd]
  cases q
  cases htr : trustedOnly _
  simp_all

/-- `Ready` comes from the trusted votes alone, or from all of them without absence nacks. -/
theorem mergeViewChange_ready (h : mergeViewChange q Q = .ready log) :
    (Q.viewChange ≤ trustedCount q ∧
        mergeDvcQuorum (trustedOnly q) { Q with absenceNacks := true } = .ready log) ∨
      mergeDvcQuorum q { Q with viewChange := Q.replicaCount, absenceNacks := false } =
        .ready log := by
  have houtcome : (if trustedCount q = q.dvcCount
        then mergeDvcQuorum q { Q with absenceNacks := true }
        else mergeDvcQuorum (trustedOnly q) { Q with absenceNacks := true }) =
      mergeDvcQuorum (trustedOnly q) { Q with absenceNacks := true } := by
    split_ifs with heq
    · rw [trustedCount, ← length_dvcIter, countP_eq_length] at heq
      rw [trustedOnly_eq_self fun d hd => by simpa using heq d hd]
    · rfl
  simp only [mergeViewChange, houtcome] at h
  by_cases htrusted : Q.viewChange ≤ trustedCount q
  · rw [if_pos htrusted] at h
    cases hm : mergeDvcQuorum (trustedOnly q) { Q with absenceNacks := true } with
    | ready log' => simp only [hm] at h; exact .inl ⟨htrusted, h⟩
    | _ => simp only [hm] at h; split_ifs at h; exact .inr h
  · rw [if_neg htrusted] at h
    split_ifs at h
    exact .inr h

/-- The entry at position `opHead - k` is the one for op `k`, when the suffixes are laid out as the
decoder accepts them. -/
theorem op_eq_of_slot (hq : ∀ d ∈ q.dvcIter, d.Indexed) {x : PrepareHeader}
    (h : ∃ d ∈ q.dvcIter, ∃ i, d.suffix.indexOf d.op k = some i ∧
      d.suffix.validHeaderAt i = some x) : x.op = k := by
  obtain ⟨d, hd, i, hi, hx⟩ := h
  obtain ⟨hle, rfl, -⟩ := DvcSuffix.indexOf_eq_some.mp hi
  have := (hq d hd _ x (DvcSuffix.validHeaderAt_eq_some.mp hx).1).2
  omega

/-- **Trusted senders.** Let `A` be a replication quorum of which every reported member still serves
the prepare with checksum `c j` at every op `j` from the commit point to `k`, and let the canonical
senders hold `c j` or abstain. Then no view starts with a head below `k`, and a view whose commit
point is not above `k` starts with that prepare at `k`. -/
theorem merge_keeps_acked_ops (n k : Nat) (hk : 1 ≤ k) (c : Nat → Nat) (q : DvcQuorumArray)
    (hq : q.FromCluster n) (htrusted : ∀ d ∈ q.dvcIter, d.untrustedLog = false)
    (A : Finset (Fin replicasMax)) (hA : ∀ r ∈ A, r.val < n)
    (hcard : quorumReplication n ≤ A.card)
    (hacked : ∀ j, max (mergeCommitMax q prepareQueueCeiling) 1 ≤ j → j ≤ k →
      ∀ d ∈ q.dvcIter, d.replica ∈ A → d.HoldsBody j (c j))
    (hcanonical : ∀ j, max (mergeCommitMax q prepareQueueCeiling) 1 ≤ j → j ≤ k →
      Vouched q j (c j) ∧ Reached q j) :
    ∀ log, mergeViewChange q (mergeQuorums n) = .ready log →
      k ≤ log.opHead ∧
      (log.commitMax ≤ k → ∃ x, log.headers[log.opHead - k]? = some x ∧ x.checksum = c k ∧
        ((∀ d ∈ q.dvcIter, d.Indexed) → x.op = k)) := by
  intro log hready
  have hbacked : ∀ absence j, max (mergeCommitMax q prepareQueueCeiling) 1 ≤ j → j ≤ k →
      Backed q A c absence j := fun absence j h1 h2 =>
    ⟨(hcanonical j h1 h2).1, (hcanonical j h1 h2).2,
      fun d hd hdA => .inr (.inr (.inl (hacked j h1 h2 d hd hdA)))⟩
  have hmerge : ∃ Q : MergeQuorums, Q.nackPrepare = quorumNackPrepare n ∧
      Q.prepareQueueCeiling = prepareQueueCeiling ∧ mergeDvcQuorum q Q = .ready log := by
    rcases mergeViewChange_ready hready with ⟨-, h⟩ | h
    · rw [trustedOnly_eq_self htrusted] at h
      exact ⟨_, rfl, rfl, h⟩
    · exact ⟨_, rfl, rfl, h⟩
  obtain ⟨Q, hnack, hceil, h⟩ := hmerge
  obtain ⟨hhead, hentry⟩ := mergeDvcQuorum_keeps hnack hk hq hA hcard
    (fun j h1 h2 => hbacked _ j (hceil ▸ h1) h2) h
  refine ⟨hhead, fun hle => ?_⟩
  obtain ⟨x, hx, hc, hslot⟩ := hentry hle
  exact ⟨x, hx, hc, fun hidx => op_eq_of_slot hidx hslot⟩

def sampleHeader (op : Nat) : PrepareHeader :=
  { command := .prepare, operation := .createStream, op, checksum := 100 + op, parent := 99 + op }

theorem sample_len_le : [sampleHeader 1].length ≤ dvcHeadersMax := by decide

theorem sample_none_lt : 0 < 2 ^ [sampleHeader 1].length := by decide

theorem sample_one_lt : 1 < 2 ^ [sampleHeader 1].length := by decide

/-- A trusted vote that serves op 1 and has nothing else. -/
def sampleVote (replica : Fin replicasMax) : StoredDvc :=
  ⟨replica, 0, 1, 0, ⟨[sampleHeader 1], 0, 1, sample_len_le, sample_none_lt, sample_one_lt⟩,
    false⟩

def sampleQuorum : DvcQuorumArray := (DvcQuorumArray.empty.seat (sampleVote 0)).seat (sampleVote 1)

theorem merge_keeps_acked_ops_sample : ∃ log,
    mergeViewChange sampleQuorum (mergeQuorums 3) = .ready log ∧ 1 ≤ log.opHead ∧
      ∃ x, log.headers[log.opHead - 1]? = some x ∧ x.checksum = 101 := by
  have hready : mergeViewChange sampleQuorum (mergeQuorums 3) =
      .ready ⟨1, 0, [sampleHeader 1], []⟩ := by decide
  have hone : ∀ j, max (mergeCommitMax sampleQuorum prepareQueueCeiling) 1 ≤ j → j ≤ 1 → j = 1 :=
    fun j h1 h2 => by omega
  obtain ⟨h1, h2⟩ := merge_keeps_acked_ops 3 1 le_rfl (100 + ·) sampleQuorum
    (by decide) (by decide) {0, 1} (by decide) (by decide)
    (fun j h1 h2 => by obtain rfl := hone j h1 h2; decide)
    (fun j h1 h2 => by obtain rfl := hone j h1 h2; decide) _ hready
  obtain ⟨x, hx, hc, -⟩ := h2 (by decide)
  exact ⟨_, hready, h1, x, hx, hc⟩

end Iggy
