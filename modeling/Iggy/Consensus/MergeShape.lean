import Iggy.Consensus.MergeSafe
import Iggy.Lib.Except

/-!
# What a decided merge looks like

`merge_dvc_quorum` assembles its log in three walks: the tally up from the commit point, the walk
down the canonical headers, and the committed headers other senders report below them. `Justified`
is what the three agree on.
-/

namespace Iggy

open List Lib DvcQuorumArray

def StoredDvc.Serves (d : StoredDvc) (op c : Nat) : Prop :=
  ∃ i h, d.suffix.indexOf d.op op = some i ∧ d.suffix.validHeaderAt i = some h ∧ h.checksum = c ∧
    d.suffix.offersBody i = true

/-- The entry one op above names a header as its parent; an unsealed checksum passes. -/
def NamesParent (child header : PrepareHeader) : Prop :=
  child.op = header.op + 1 ∧ (child.parent = header.checksum ∨ child.parent = checksumUnsealed ∨
    header.checksum = checksumUnsealed)

/-- The installed headers reach it from parent to parent, through headers kept beside them. -/
inductive Linked (installed extra : List PrepareHeader) : PrepareHeader → Prop
  | top {child header : PrepareHeader} (above : child ∈ installed) (names : NamesParent child header) :
      Linked installed extra header
  | next {child header : PrepareHeader} (kept : child ∈ extra) (above : Linked installed extra child)
      (names : NamesParent child header) : Linked installed extra header

structure Justified (q : DvcQuorumArray) (Q : MergeQuorums) (log : MergedLog) : Prop where
  head : log.commitMax ≤ log.opHead
  ops : log.headers.map (·.op) =
    (List.range (log.opHead + 1 - max log.commitMax 1)).map (log.opHead - ·)
  empty : log.headers = [] ↔ log.opHead = 0
  valid : ∀ header ∈ log.headers, dvcHeaderKind header = .valid
  chained : log.headers.IsChain fun child next => child.parent = next.checksum
  held : ∀ header ∈ log.headers,
    (∃ d ∈ q.dvcIter, AtMaxLogView q d ∧ ∃ i, d.suffix.indexOf d.op header.op = some i ∧
      d.suffix.validHeaderAt i = some header) ∧
    ∀ d ∈ q.dvcIter, AtMaxLogView q d → ∀ c, d.Holds header.op c → c = header.checksum
  served : ∀ header ∈ log.headers, ∃ d ∈ q.dvcIter, d.Serves header.op header.checksum
  /-- A head below one of theirs is below a nack quorum. -/
  cut : ∀ d ∈ q.dvcIter, AtMaxLogView q d → log.opHead < d.op →
    log.commitMax < log.opHead + 1 ∧
    Q.nackPrepare ≤ (tallyOp q (canonicalSenders q d.logView) d.logView (log.opHead + 1)
      Q.absenceNacks).nacks
  elsewhere : ∀ header ∈ log.committedElsewhere,
    (∀ installed ∈ log.headers, header.op < installed.op) ∧
      Linked log.headers log.committedElsewhere header

/-! ## The tally -/

variable {q : DvcQuorumArray} {senders : List StoredDvc} {v commitMax op head : Nat}

theorem mergeScan_copies {Q : MergeQuorums} {top fuel k : Nat}
    (h : mergeScan q Q senders v commitMax top fuel op = .ok head) (hop : op ≤ k) (hk : k ≤ head)
    (hfuel : k < op + fuel) : (tallyOp q senders v k Q.absenceNacks).copies ≠ 0 := by
  induction fuel generalizing op with
  | zero => omega
  | succ fuel ih =>
    simp only [mergeScan] at h
    split_ifs at h with hnack hcommit hconflict hmissing
    · have := Except.ok.inj h
      omega
    · rcases Nat.eq_or_lt_of_le hop with rfl | hlt
      · simp only [Bool.or_eq_true, not_or, beq_iff_eq] at hmissing
        exact hmissing.2
      · exact ih h (by omega) (by omega)

theorem mergeScan_le_top {Q : MergeQuorums} {top fuel : Nat}
    (hfuel : op + fuel ≤ top + 1 ∨ fuel = 0)
    (h : mergeScan q Q senders v commitMax top fuel op = .ok head) : head ≤ top := by
  induction fuel generalizing op with
  | zero => exact (Except.ok.inj h).ge
  | succ fuel ih =>
    simp only [mergeScan] at h
    split_ifs at h
    · have := Except.ok.inj h
      omega
    · exact ih (by omega) h

variable {header : PrepareHeader}

theorem exists_serves_of_copies {absence : Bool}
    (hheader : (canonicalHeaderAt senders op).header = some header)
    (h : (tallyOp q senders v op absence).copies ≠ 0) :
    ∃ d ∈ q.dvcIter, d.Serves op header.checksum := by
  obtain ⟨d, hd, hcopies⟩ := countP_pos_iff.mp (Nat.pos_of_ne_zero h)
  refine ⟨d, hd, ?_⟩
  simp only [copiesOp, hheader] at hcopies
  split at hcopies
  · cases hcopies
  rename_i i hi
  split at hcopies
  · rename_i held canonical hheld hcanonical
    cases hcanonical
    simp only [Bool.and_eq_true, beq_iff_eq] at hcopies
    exact ⟨i, held, hi, hheld, hcopies.2, hcopies.1⟩
  · cases hcopies

/-! ## The canonical header -/

variable {d : StoredDvc}

/-- Without a conflict the header stays once it is found, and one the sender holds has its checksum.
-/
theorem canonicalStep_agrees {acc : CanonicalAt} (h : (canonicalStep op acc d).conflict = false) :
    acc.conflict = false ∧
    (∀ x, acc.header = some x → (canonicalStep op acc d).header = some x) ∧
    ∀ c, d.Holds op c → ∃ x, (canonicalStep op acc d).header = some x ∧ x.checksum = c := by
  unfold canonicalStep at h ⊢
  cases hi : d.suffix.indexOf d.op op with
  | none =>
    refine ⟨by simpa [hi] using h, fun x hx => hx, ?_⟩
    rintro c ⟨i, _, hi', _⟩
    simp [hi] at hi'
  | some i =>
    simp only [hi] at h ⊢
    cases hv : d.suffix.validHeaderAt i with
    | none =>
      simp only [hv] at h ⊢
      refine ⟨h, fun x hx => hx, ?_⟩
      rintro c ⟨i', _, hi', hv', _⟩
      cases hi.symm.trans hi'
      simp [hv] at hv'
    | some candidate =>
      simp only [hv] at h ⊢
      have hcandidate : ∀ c, d.Holds op c → candidate.checksum = c := by
        rintro c ⟨i', held, hi', hv', hc⟩
        cases hi.symm.trans hi'
        cases hv.symm.trans hv'
        exact hc
      cases hheader : acc.header with
      | none =>
        simp only [hheader] at h ⊢
        refine ⟨h, fun x hx => ?_, fun c hc => ⟨candidate, rfl, hcandidate c hc⟩⟩
        cases hx
      | some existing =>
        simp only [hheader] at h ⊢
        split_ifs at h ⊢ with hdiffers
        · exact ⟨h, fun x hx => hx ▸ hheader, fun c hc => ⟨existing, hheader, by
            rw [not_not.mp hdiffers, hcandidate c hc]⟩⟩

theorem foldl_canonicalStep_agrees (senders : List StoredDvc) (acc : CanonicalAt)
    (h : (senders.foldl (canonicalStep op) acc).conflict = false) :
    acc.conflict = false ∧
    (∀ x, acc.header = some x → (senders.foldl (canonicalStep op) acc).header = some x) ∧
    ∀ d ∈ senders, ∀ c, d.Holds op c →
      ∃ x, (senders.foldl (canonicalStep op) acc).header = some x ∧ x.checksum = c := by
  induction senders generalizing acc with
  | nil => exact ⟨h, fun _ hx => hx, by simp⟩
  | cons d ds ih =>
    obtain ⟨hconflict, hheader, hrest⟩ := ih _ h
    obtain ⟨hconflict', hheader', hholds⟩ := canonicalStep_agrees hconflict
    refine ⟨hconflict', fun x hx => hheader x (hheader' x hx), fun e he c hc => ?_⟩
    rcases mem_cons.mp he with rfl | he
    · obtain ⟨x, hx, hxc⟩ := hholds c hc
      exact ⟨x, hheader x hx, hxc⟩
    · exact hrest e he c hc

def Canonical (senders : List StoredDvc) (op : Nat) (header : PrepareHeader) : Prop :=
  (canonicalHeaderAt senders op).header = some header ∧
    (canonicalHeaderAt senders op).conflict = false

theorem Canonical.checksum_eq {c : Nat} (h : Canonical senders op header) (hd : d ∈ senders)
    (hc : d.Holds op c) : c = header.checksum := by
  obtain ⟨x, hx, rfl⟩ := (foldl_canonicalStep_agrees senders _ h.2).2.2 d hd c hc
  rw [Option.some.inj (h.1.symm.trans hx)]

/-! ## The walk down -/

variable {headers : List PrepareHeader}

theorem canonicalHeadersFrom_spec {floor : Nat} {child : Option PrepareHeader} (hfloor : 1 ≤ floor)
    (hop : floor ≤ op) (h : canonicalHeadersFrom senders floor op child = some headers) :
    headers.length = op + 1 - floor ∧
    (∀ i header, headers[i]? = some header → Canonical senders (op - i) header) ∧
    headers.IsChain (fun child next => child.parent = next.checksum) ∧
    ∀ c ∈ child, ∀ header ∈ headers.head?, c.parent = header.checksum := by
  induction op generalizing child headers with
  | zero => omega
  | succ op ih =>
    unfold canonicalHeadersFrom at h
    split at h <;> try contradiction
    rename_i x _ hx
    have hcanonical : Canonical senders (op + 1) x := by simp [Canonical, hx]
    split_ifs at h with hparent hlast
    · cases h
      refine ⟨by simp only [length_singleton]; omega, fun i header hi => ?_, by simp, ?_⟩
      · obtain ⟨rfl, rfl⟩ : i = 0 ∧ x = header := by
          cases i <;> simp_all
        exact hcanonical
      · intro c hc header hheader
        simp_all
    · obtain ⟨rest, hrest, rfl⟩ := Option.map_eq_some_iff.mp h
      obtain ⟨hlength, hheaders, hchain, hhead⟩ := ih (by omega) hrest
      refine ⟨by simp only [length_cons, hlength]; omega, fun i header hi => ?_, ?_, ?_⟩
      · cases i with
        | zero =>
          cases hi
          exact hcanonical
        | succ i =>
          rw [show op + 1 - (i + 1) = op - i by omega]
          exact hheaders i header hi
      · exact isChain_cons.mpr ⟨fun next hnext => hhead x rfl next hnext, hchain⟩
      · intro c hc header hheader
        simp_all

/-! ## The committed headers below -/

variable {installed : List PrepareHeader}

theorem claimHeader_fresh {claimed claimed' : List PrepareHeader} {commit : Nat}
    (h : claimHeader installed commit claimed header = some claimed')
    (fresh : ∀ x ∈ claimed, ∀ y ∈ installed, y.op ≠ x.op) :
    ∀ x ∈ claimed', ∀ y ∈ installed, y.op ≠ x.op := by
  unfold claimHeader at h
  split_ifs at h with _ _ hinstalled
  · exact Option.some.inj h ▸ fresh
  · exact Option.some.inj h ▸ fresh
  · exact Option.some.inj h ▸ fresh
  · split at h
    · split_ifs at h
      exact Option.some.inj h ▸ fresh
    · cases h
      intro x hx y hy
      rcases mem_append.mp hx with hx | hx
      · exact fresh x hx y hy
      · obtain rfl := mem_singleton.mp hx
        simp only [any_eq_true, beq_iff_eq, not_exists, not_and] at hinstalled
        exact hinstalled y hy

theorem corroborated_iff {log : List PrepareHeader} (h : corroborated log header = true) :
    ∃ child ∈ log, NamesParent child header := by
  unfold corroborated at h
  split at h
  · cases h
  rename_i child hchild
  refine ⟨child, mem_of_find?_eq_some hchild, ?_, ?_⟩
  · simpa using find?_some hchild
  · by_contra hnone
    push Not at hnone
    simp [hnone.1, hnone.2.1, hnone.2.2] at h

def Dense (installed : List PrepareHeader) : Prop :=
  ∀ low ∈ installed, ∀ high ∈ installed, ∀ k, low.op ≤ k → k ≤ high.op →
    ∃ header ∈ installed, header.op = k

def HangsOn (installed extra : List PrepareHeader) (header : PrepareHeader) : Prop :=
  (∀ y ∈ installed, header.op < y.op) ∧ Linked installed extra header

variable {extra : List PrepareHeader}

theorem HangsOn.append {later : List PrepareHeader} (h : HangsOn installed extra header) :
    HangsOn installed (extra ++ later) header := by
  obtain ⟨hbelow, hlinked⟩ := h
  refine ⟨hbelow, ?_⟩
  clear hbelow
  induction hlinked with
  | top above names => exact .top above names
  | next kept _ names ih => exact .next (mem_append_left _ kept) ih names

theorem hangsOn_of_corroborated (dense : Dense installed)
    (fresh : ∀ y ∈ installed, y.op ≠ header.op) (hextra : ∀ x ∈ extra, HangsOn installed extra x)
    (h : corroborated (installed ++ extra) header = true) : HangsOn installed extra header := by
  obtain ⟨child, hchild, hnames⟩ := corroborated_iff h
  have hop := hnames.1
  rcases mem_append.mp hchild with hchild | hchild
  · refine ⟨fun y hy => ?_, .top hchild hnames⟩
    by_contra hle
    obtain ⟨z, hz, hzop⟩ := dense y hy child hchild header.op (by omega) (by omega)
    exact fresh z hz hzop
  · obtain ⟨hbelow, hlinked⟩ := hextra child hchild
    refine ⟨fun y hy => ?_, .next hchild hlinked hnames⟩
    have := hbelow y hy
    omega

theorem committedElsewhere_hangsOn (dense : Dense installed)
    (h : committedElsewhere q v installed = some extra) : ∀ x ∈ extra, HangsOn installed extra x := by
  unfold committedElsewhere at h
  obtain ⟨claimed, hclaimed, hextra⟩ := Option.bind_eq_some_iff.mp h
  have fresh : ∀ x ∈ claimed, ∀ y ∈ installed, y.op ≠ x.op :=
    foldlM_some_invariant (fun claimed => ∀ x ∈ claimed, ∀ y ∈ installed, y.op ≠ x.op)
      (fun _ _ _ _ hb hstep => foldlM_some_invariant _ (fun _ _ _ _ hb hclaim =>
        claimHeader_fresh hclaim hb) hb hstep) (by simp) hclaimed
  cases hextra
  -- Each header hangs on the ones kept so far, and so on all that are kept.
  suffices hfold : ∀ (l acc : List PrepareHeader), (∀ x ∈ l, ∀ y ∈ installed, y.op ≠ x.op) →
      (∀ x ∈ acc, HangsOn installed acc x) →
      let kept := l.foldl (fun extra header =>
        if corroborated (installed ++ extra) header then extra ++ [header] else extra) acc
      ∀ x ∈ kept, HangsOn installed kept x by
    refine hfold _ [] (fun x hx => fresh x ?_) (by simp)
    exact (mem_insertionSort _).mp hx
  intro l
  induction l with
  | nil => exact fun acc _ hacc => hacc
  | cons header rest ih =>
    intro acc hfresh hacc
    refine ih _ (fun x hx => hfresh x (mem_cons_of_mem _ hx)) ?_
    beta_reduce
    split
    · rename_i hcorroborated
      have hheader := hangsOn_of_corroborated dense (hfresh _ mem_cons_self) hacc hcorroborated
      exact forall_mem_append.mpr ⟨fun x hx => (hacc x hx).append,
        forall_mem_singleton.mpr hheader.append⟩
    · exact hacc

/-! ## The decided log -/

theorem dense_of_ops {n : Nat} (h : headers.map (·.op) = (List.range n).map (head - ·))
    (hn : n ≤ head + 1) : Dense headers := by
  have hmem : ∀ k, (∃ x ∈ headers, x.op = k) ↔ ∃ i < n, head - i = k := by
    intro k
    rw [← mem_map, h]
    simp
  intro low hlow high hhigh k hlowk hkhigh
  obtain ⟨i, hi, hilow⟩ := (hmem low.op).mp ⟨low, hlow, rfl⟩
  obtain ⟨j, hj, hjhigh⟩ := (hmem high.op).mp ⟨high, hhigh, rfl⟩
  exact (hmem k).mpr ⟨head - k, by omega, by omega⟩

theorem op_of_canonical (indexed : ∀ d ∈ q.dvcIter, d.Indexed) (hv : logViewCanonical q = some v)
    (h : Canonical (canonicalSenders q v) op header) :
    header.op = op ∧ ∃ d ∈ q.dvcIter, AtMaxLogView q d ∧
      ∃ i, d.suffix.indexOf d.op op = some i ∧ d.suffix.validHeaderAt i = some header := by
  obtain ⟨d, hd, i, hi, hheader⟩ := exists_sender_of_canonicalHeaderAt h.1
  obtain ⟨hmem, hmax⟩ := (mem_canonicalSenders hv d).mp hd
  obtain ⟨hle, rfl, _⟩ := DvcSuffix.indexOf_eq_some.mp hi
  obtain ⟨_, hop⟩ := indexed d hmem _ header (DvcSuffix.validHeaderAt_eq_some.mp hheader).1
  exact ⟨by omega, d, hmem, hmax, _, hi, hheader⟩

theorem logView_eq_of_atMax (hv : logViewCanonical q = some v) (hd : d ∈ q.dvcIter)
    (hmax : AtMaxLogView q d) : d.logView = v := by
  have := (mem_canonicalSenders hv d).mpr ⟨hd, hmax⟩
  simpa [canonicalSenders] using (mem_filter.mp this).2

theorem canonicalHeaders_spec {opHead : Nat} (hhead : commitMax ≤ opHead)
    (h : canonicalHeaders senders opHead commitMax = some headers) :
    headers.length = opHead + 1 - max commitMax 1 ∧
    (∀ i header, headers[i]? = some header → Canonical senders (opHead - i) header) ∧
    headers.IsChain (fun child next => child.parent = next.checksum) := by
  unfold canonicalHeaders at h
  split_ifs at h with hzero
  · cases h
    exact ⟨by simp only [length_nil]; omega, by simp, by simp⟩
  · obtain ⟨hlength, hcanonical, hchain, -⟩ := canonicalHeadersFrom_spec (by omega) (by omega) h
    exact ⟨hlength, hcanonical, hchain⟩

/-- **A decided merge is justified**: its log is one chain of valid headers down to the commit
point, each held by the newest senders without a rival and served by somebody; a head below one of
theirs is below a nack quorum; and the committed headers added below hang on the chain. -/
theorem mergeDvcQuorum_justified (q : DvcQuorumArray) (Q : MergeQuorums) (log : MergedLog)
    (indexed : ∀ d ∈ q.dvcIter, d.Indexed) (h : mergeDvcQuorum q Q = .ready log) :
    Justified q Q log := by
  obtain ⟨v, hv, ⟨hzero, rfl⟩ | ⟨hcommit, hscan, hheaders, helsewhere⟩⟩ := mergeDvcQuorum_ready h
  · refine ⟨le_rfl, rfl, by simp, by simp, by simp, by simp, by simp, fun d hd hmax hlt => ?_, by simp⟩
    have := le_opHeadMax ((mem_canonicalSenders hv d).mpr ⟨hd, hmax⟩)
      (mergeCommitMax q Q.prepareQueueCeiling)
    simp only at hlt
    omega
  · have htop : log.commitMax ≤ opHeadMax (canonicalSenders q v) log.commitMax := le_max_right ..
    have hstop := mergeScan_ok (le_max_right ..) hscan
    have hhead : log.commitMax ≤ log.opHead := by
      rcases hstop with heq | ⟨_, hle, _⟩
      · exact heq ▸ htop
      · exact hle
    have hletop : log.opHead ≤ opHeadMax (canonicalSenders q v) log.commitMax :=
      mergeScan_le_top (by omega) hscan
    obtain ⟨hlength, hcanonical, hchain⟩ := canonicalHeaders_spec hhead hheaders
    -- Position `i` holds the canonical header of op `opHead - i`.
    have hposition : ∀ header ∈ log.headers, ∃ i < log.headers.length,
        header.op = log.opHead - i ∧ Canonical (canonicalSenders q v) header.op header := by
      intro header hmem
      obtain ⟨i, hi⟩ := mem_iff_getElem?.mp hmem
      have hop := (op_of_canonical indexed hv (hcanonical i header hi)).1
      exact ⟨i, (List.getElem?_eq_some_iff.mp hi).1, hop, hop ▸ hcanonical i header hi⟩
    have hops : log.headers.map (·.op) =
        (List.range (log.opHead + 1 - max log.commitMax 1)).map (log.opHead - ·) := by
      refine ext_getElem? fun i => ?_
      simp only [getElem?_map, ← hlength]
      cases hi : log.headers[i]? with
      | none => simp [List.getElem?_eq_none_iff.mp hi]
      | some header =>
        have hop := (op_of_canonical indexed hv (hcanonical i header hi)).1
        simp [hop, (List.getElem?_eq_some_iff.mp hi).1]
    refine ⟨hhead, hops, ?_, fun header hmem => ?_, hchain, fun header hmem => ?_,
      fun header hmem => ?_, fun d hd hmax hlt => ?_,
      committedElsewhere_hangsOn (dense_of_ops hops (by omega)) helsewhere⟩
    · rw [← length_eq_zero_iff, hlength]
      omega
    · obtain ⟨i, _, _, hheader⟩ := hposition header hmem
      obtain ⟨_, d, _, _, j, _, hvalid⟩ := op_of_canonical indexed hv hheader
      exact (DvcSuffix.validHeaderAt_eq_some.mp hvalid).2
    · obtain ⟨i, _, _, hheader⟩ := hposition header hmem
      refine ⟨(op_of_canonical indexed hv hheader).2, fun d hd hmax c hc => ?_⟩
      exact hheader.checksum_eq ((mem_canonicalSenders hv d).mpr ⟨hd, hmax⟩) hc
    · obtain ⟨i, hi, hop, hheader⟩ := hposition header hmem
      exact exists_serves_of_copies hheader.1
        (mergeScan_copies hscan (by omega) (by omega) (by omega))
    · obtain rfl := logView_eq_of_atMax hv hd hmax
      have hreach := le_opHeadMax ((mem_canonicalSenders hv d).mpr ⟨hd, hmax⟩) log.commitMax
      rcases hstop with heq | ⟨_, hle, hnacks⟩
      · omega
      · exact ⟨by omega, hnacks⟩

/-- A vote for two ops from `op` down, the commit point at `commit`. -/
def pairVote (replica : Fin replicasMax) (logView op commit : Nat) : StoredDvc :=
  ⟨replica, logView, op + 1, commit, ⟨[sampleHeader (op + 1), sampleHeader op], 0, 3,
    by simp [dvcHeadersMax], by simp, by simp⟩, false⟩

theorem pairVote_indexed (replica : Fin replicasMax) (logView op commit : Nat) :
    (pairVote replica logView op commit).Indexed := by
  intro i header hi
  match i with
  | 0 =>
    cases hi
    exact ⟨Nat.zero_le _, rfl⟩
  | 1 =>
    cases hi
    exact ⟨Nat.le_add_left .., rfl⟩
  | i + 2 => simp [pairVote] at hi

/-- The newest vote ends at op 4; the one behind it reports ops 2 and 1 committed. -/
theorem mergeDvcQuorum_justified_sample :
    let q := (DvcQuorumArray.empty.seat (pairVote 0 1 3 3)).seat (pairVote 1 0 1 2)
    ∃ log, mergeDvcQuorum q (mergeQuorums 3) = .ready log ∧ Justified q (mergeQuorums 3) log ∧
      log.headers = [sampleHeader 4, sampleHeader 3] ∧
      log.committedElsewhere = [sampleHeader 2, sampleHeader 1] ∧
      Linked log.headers log.committedElsewhere (sampleHeader 1) := by
  intro q
  have hvotes : q.dvcIter = [pairVote 0 1 3 3, pairVote 1 0 1 2] := by decide
  have hindexed : ∀ d ∈ q.dvcIter, d.Indexed := by
    simp [hvotes, pairVote_indexed]
  have hready : mergeDvcQuorum q (mergeQuorums 3) =
      .ready ⟨4, 3, [sampleHeader 4, sampleHeader 3], [sampleHeader 2, sampleHeader 1]⟩ := by decide
  have hjustified := mergeDvcQuorum_justified _ _ _ hindexed hready
  exact ⟨_, hready, hjustified, rfl, rfl, (hjustified.elsewhere _ (by simp)).2⟩

end Iggy
