import Iggy.Consensus.Replica
import Iggy.Lib.Frontier
import Mathlib.Data.Finset.Image

/-!
# Acknowledgements: `handle_prepare_ok`, `ack_quorum_reached`

Source: impls.rs:5370-5457, plane_helpers.rs:448-483.

Each `PrepareOk` is recorded on the pipeline entry it names; when an entry first reaches the
replication quorum the commit point walks over the entries that have one. `Tallied` is the state
after any sequence of acks in closed form, from the set of replicas that acked each entry; the order
of the acks appears nowhere in it.
-/

namespace Iggy

open List Lib PipelineEntry VsrConsensus

/-- The fields of `PrepareOkHeader` (header.rs:1344-1365) that ack handling reads. -/
structure PrepareOkHeader where
  command : Command := .prepareOk
  replica : Nat
  view : Nat
  op : Nat
  prepareChecksum : Nat
  deriving DecidableEq

/-- The `IgnoreReason`s (observability.rs:90-103) `handle_prepare_ok` gives. -/
inductive IgnoreReason
  | stateTransfer | newerView | olderView | unknownPrepare | duplicateAck | checksumMismatch
  deriving DecidableEq

/-- `PrepareOkOutcome` (impls.rs:1182-1190). -/
inductive PrepareOkOutcome
  | accepted (ackCount : Nat) (quorumReached : Bool)
  | ignored (reason : IgnoreReason)
  deriving DecidableEq

/-- What an accepted ack does to its entry (impls.rs:5425-5433). -/
def PipelineEntry.recordAck (quorum replica : Nat) (e : PipelineEntry) : PipelineEntry :=
  { e.addAck replica with
    okQuorumReceived := e.okQuorumReceived || decide (quorum ≤ (e.addAck replica).ackCount) }

theorem PipelineEntry.recordAck_header (quorum replica : Nat) (e : PipelineEntry) :
    (e.recordAck quorum replica).header = e.header := rfl

namespace VsrConsensus

def recordAck (s : VsrConsensus) (header : PrepareOkHeader) : VsrConsensus :=
  { s with
    pipeline := s.pipeline.updateByOp header.op (PipelineEntry.recordAck s.quorum header.replica)
      (recordAck_header _ _) }

/-- `none` where it panics. -/
def handlePrepareOk (s : VsrConsensus) (header : PrepareOkHeader) :
    Option (VsrConsensus × PrepareOkOutcome) :=
  if header.command ≠ .prepareOk then none
  else if s.replicaCount ≤ header.replica then none
  else if header.view < s.view then some (s, .ignored .olderView)
  else if s.view < header.view then some (s, .ignored .newerView)
  else if s.isTransferring then some (s, .ignored .stateTransfer)
  else match s.pipeline.messageByOp header.op with
    | none => some (s, .ignored .unknownPrepare)
    | some entry =>
      if entry.header.checksum ≠ header.prepareChecksum then some (s, .ignored .checksumMismatch)
      else if entry.hasAck header.replica then some (s, .ignored .duplicateAck)
      else
        let ackCount := (entry.addAck header.replica).ackCount
        let quorumReached := decide (s.quorum ≤ ackCount) && !entry.okQuorumReceived
        some (s.recordAck header, .accepted ackCount quorumReached)

/-- Whether the walk of `ack_quorum_reached` may step over `op`. -/
def quorumAt (p : LocalPipeline) (op : Nat) : Bool :=
  (p.messageByOp op).any (·.okQuorumReceived)

/-- The `while let` stops past the tail, so the tail op bounds its steps. -/
def walkCommit (s : VsrConsensus) : VsrConsensus × Bool :=
  let newCommit := frontier (quorumAt s.pipeline) s.pipeline.tailOp s.commitMax
  if s.commitMax < newCommit then (s.advanceCommitMax newCommit, true) else (s, false)

def ackQuorumReached (s : VsrConsensus) (ack : PrepareOkHeader) : Option (VsrConsensus × Bool) :=
  match s.handlePrepareOk ack with
  | none => none
  | some (s', .accepted _ true) => some s'.walkCommit
  | some (s', _) => some (s', false)

def ackRun (s : VsrConsensus) : List PrepareOkHeader → Option VsrConsensus
  | [] => some s
  | ack :: acks =>
    match s.ackQuorumReached ack with
    | none => none
    | some (s', _) => s'.ackRun acks

end VsrConsensus

/-! ## Who acknowledged what -/

/-- An ack for this very prepare, sent in `view`. -/
def PrepareOkHeader.AcksIn (a : PrepareOkHeader) (view : Nat) (h : PrepareHeader) : Prop :=
  a.view = view ∧ a.op = h.op ∧ a.prepareChecksum = h.checksum

instance (a : PrepareOkHeader) (view : Nat) (h : PrepareHeader) : Decidable (a.AcksIn view h) :=
  inferInstanceAs (Decidable (_ ∧ _))

/-- The distinct replicas that acknowledged `h` in `view`. -/
def ackers (view : Nat) (acks : List PrepareOkHeader) (h : PrepareHeader) : Finset Nat :=
  ((acks.filter fun a => decide (a.AcksIn view h)).map (·.replica)).toFinset

variable {view : Nat} {acks : List PrepareOkHeader} {h : PrepareHeader}

theorem mem_ackers {r : Nat} :
    r ∈ ackers view acks h ↔ ∃ a ∈ acks, a.AcksIn view h ∧ a.replica = r := by
  simp [ackers, and_assoc]

theorem ackers_append_of_acks {a : PrepareOkHeader} (ha : a.AcksIn view h) :
    ackers view (acks ++ [a]) h = insert a.replica (ackers view acks h) := by
  ext r
  simp only [mem_ackers, mem_append, mem_singleton, Finset.mem_insert]
  constructor
  · rintro ⟨b, hb | rfl, hin, rfl⟩
    · exact .inr ⟨b, hb, hin, rfl⟩
    · exact .inl rfl
  · rintro (rfl | ⟨b, hb, hin, rfl⟩)
    · exact ⟨a, .inr rfl, ha, rfl⟩
    · exact ⟨b, .inl hb, hin, rfl⟩

theorem ackers_append_of_not_acks {a : PrepareOkHeader} (ha : ¬ a.AcksIn view h) :
    ackers view (acks ++ [a]) h = ackers view acks h := by
  ext r
  simp only [mem_ackers, mem_append, mem_singleton]
  constructor
  · rintro ⟨b, hb | rfl, hin, rfl⟩
    · exact ⟨b, hb, hin, rfl⟩
    · exact absurd hin ha
  · rintro ⟨b, hb, hin, rfl⟩
    exact ⟨b, .inl hb, hin, rfl⟩

theorem ackers_congr {acks' : List PrepareOkHeader} (hset : ∀ a, a ∈ acks ↔ a ∈ acks')
    (h : PrepareHeader) : ackers view acks h = ackers view acks' h := by
  ext r
  simp only [mem_ackers, hset]

/-- The entry after `acks`, starting from none recorded. -/
def tally (view quorum : Nat) (acks : List PrepareOkHeader) (e : PipelineEntry) :
    PipelineEntry where
  header := e.header
  okFromReplicas := ackers view acks e.header
  okQuorumReceived := decide (quorum ≤ (ackers view acks e.header).card)

/-- `op` is queued and has a replication quorum of acks. -/
def quorumAcked (s : VsrConsensus) (acks : List PrepareOkHeader) (op : Nat) : Bool :=
  (s.pipeline.messageByOp op).any fun e =>
    decide (s.quorum ≤ (ackers s.view acks e.header).card)

theorem tally_append (view quorum : Nat) (acks : List PrepareOkHeader) (a : PrepareOkHeader)
    (e : PipelineEntry) :
    tally view quorum (acks ++ [a]) e =
      if a.AcksIn view e.header then (tally view quorum acks e).recordAck quorum a.replica
      else tally view quorum acks e := by
  split_ifs with ha
  · have hmono : (ackers view acks e.header).card ≤ (ackers view (acks ++ [a]) e.header).card := by
      rw [ackers_append_of_acks ha]
      exact Finset.card_le_card (Finset.subset_insert ..)
    have hset : ((tally view quorum acks e).addAck a.replica).okFromReplicas =
        ackers view (acks ++ [a]) e.header := (ackers_append_of_acks ha).symm
    have hflag : (quorum ≤ (ackers view (acks ++ [a]) e.header).card) ↔
        quorum ≤ (ackers view acks e.header).card ∨
          quorum ≤ (ackers view (acks ++ [a]) e.header).card :=
      ⟨.inr, fun hor => hor.elim (·.trans hmono) id⟩
    simp only [PipelineEntry.recordAck, ackCount, hset]
    simp only [tally, addAck, ← Bool.decide_or, ← ackers_append_of_acks ha, mk.injEq, true_and]
    exact decide_eq_decide.mpr hflag
  · simp only [tally, ackers_append_of_not_acks ha]

/-! ## The state after a run of acks -/

/-- The pipeline `acks` lead to from `s₀`'s. -/
def TalliedPipeline (s₀ : VsrConsensus) (acks : List PrepareOkHeader) (p : LocalPipeline) : Prop :=
  p.entries = s₀.pipeline.entries.map (tally s₀.view s₀.quorum acks)

/-- The state `acks` lead to from `s₀`, in closed form. -/
structure Tallied (s₀ : VsrConsensus) (acks : List PrepareOkHeader) (s : VsrConsensus) : Prop where
  view : s.view = s₀.view
  count : s.replicaCount = s₀.replicaCount
  idle : s.isTransferring = false
  pipeline : TalliedPipeline s₀ acks s.pipeline
  commit : IsGreatest (Runs (quorumAcked s₀ acks) s₀.commitMax) s.commitMax

section Step

open LocalPipeline

variable {s₀ s : VsrConsensus} {acks : List PrepareOkHeader} {a : PrepareOkHeader}
  {p : LocalPipeline} {e : PipelineEntry}

theorem TalliedPipeline.messageByOp (h : TalliedPipeline s₀ acks p) (op : Nat) :
    p.messageByOp op = (s₀.pipeline.messageByOp op).map (tally s₀.view s₀.quorum acks) := by
  have hent : p.entries = s₀.pipeline.entries.map (tally s₀.view s₀.quorum acks) := h
  ext e
  simp only [messageByOp_eq_some, Option.map_eq_some_iff, hent, mem_map]
  constructor
  · rintro ⟨⟨x, hx, rfl⟩, hop⟩
    exact ⟨x, ⟨hx, hop⟩, rfl⟩
  · rintro ⟨x, ⟨hx, hop⟩, rfl⟩
    exact ⟨⟨x, hx, rfl⟩, hop⟩

theorem TalliedPipeline.quorumAt (h : TalliedPipeline s₀ acks p) :
    quorumAt p = quorumAcked s₀ acks := by
  funext op
  rw [VsrConsensus.quorumAt, h.messageByOp, quorumAcked, Option.any_map]
  rfl

theorem quorumAcked_mono (op : Nat) (h : quorumAcked s₀ acks op = true) :
    quorumAcked s₀ (acks ++ [a]) op = true := by
  simp only [quorumAcked, Option.any_eq_true, decide_eq_true_eq] at h ⊢
  obtain ⟨e, he, hq⟩ := h
  refine ⟨e, he, hq.trans (Finset.card_le_card fun r hr => ?_)⟩
  obtain ⟨b, hb, hin, hrep⟩ := mem_ackers.mp hr
  exact mem_ackers.mpr ⟨b, mem_append_left _ hb, hin, hrep⟩

theorem Tallied.quorum (h : Tallied s₀ acks s) : s.quorum = s₀.quorum := by
  rw [VsrConsensus.quorum, h.count, VsrConsensus.quorum]

/-- An ack that adds no replica to any entry. -/
theorem Tallied.append_of_mem (h : Tallied s₀ acks s)
    (hno : ∀ e ∈ s₀.pipeline.entries, a.AcksIn s₀.view e.header →
      a.replica ∈ ackers s₀.view acks e.header) : Tallied s₀ (acks ++ [a]) s := by
  have hack : ∀ e ∈ s₀.pipeline.entries,
      ackers s₀.view (acks ++ [a]) e.header = ackers s₀.view acks e.header := by
    intro e he
    by_cases hin : a.AcksIn s₀.view e.header
    · rw [ackers_append_of_acks hin, Finset.insert_eq_of_mem (hno e he hin)]
    · exact ackers_append_of_not_acks hin
  have hmark : quorumAcked s₀ (acks ++ [a]) = quorumAcked s₀ acks := by
    funext op
    unfold quorumAcked
    cases hm : s₀.pipeline.messageByOp op with
    | none => rfl
    | some e => simp only [Option.any_some, hack e (messageByOp_eq_some.mp hm).1]
  refine ⟨h.view, h.count, h.idle, h.pipeline.trans ?_, hmark ▸ h.commit⟩
  refine map_congr_left fun e he => ?_
  simp only [tally, hack e he]

theorem Tallied.pipeline_recordAck (h : Tallied s₀ acks s) (hview : a.view = s₀.view)
    (he : s₀.pipeline.messageByOp a.op = some e) (hsum : e.header.checksum = a.prepareChecksum) :
    TalliedPipeline s₀ (acks ++ [a]) (s.recordAck a).pipeline := by
  obtain ⟨hmem, hop⟩ := messageByOp_eq_some.mp he
  have hent : s.pipeline.entries = s₀.pipeline.entries.map (tally s₀.view s₀.quorum acks) :=
    h.pipeline
  simp only [TalliedPipeline, VsrConsensus.recordAck, updateByOp, hent, map_map, h.quorum]
  refine map_congr_left fun x hx => ?_
  -- the run holds one entry per op, so an entry at `a.op` is the acked one
  have hiff : a.AcksIn s₀.view x.header ↔ x.header.op = a.op := by
    constructor
    · exact fun hin => hin.2.1.symm
    · intro hx'
      obtain rfl : x = e := eq_of_op_eq hx hmem (hx'.trans hop.symm)
      exact ⟨hview, hop.symm, hsum.symm⟩
  have hhead : (tally s₀.view s₀.quorum acks x).header = x.header := rfl
  simp only [Function.comp_apply, tally_append, hiff, hhead]

theorem quorumAcked_append_of_not_reached (he : s₀.pipeline.messageByOp a.op = some e)
    (hreach : s₀.quorum ≤ (insert a.replica (ackers s₀.view acks e.header)).card →
      s₀.quorum ≤ (ackers s₀.view acks e.header).card) :
    quorumAcked s₀ (acks ++ [a]) = quorumAcked s₀ acks := by
  funext op
  rw [Bool.eq_iff_iff]
  refine ⟨fun h => ?_, quorumAcked_mono op⟩
  simp only [quorumAcked, Option.any_eq_true, decide_eq_true_eq] at h ⊢
  obtain ⟨x, hx, hq⟩ := h
  refine ⟨x, hx, ?_⟩
  by_cases hin : a.AcksIn s₀.view x.header
  · have hop : a.op = op := hin.2.1.trans (messageByOp_eq_some.mp hx).2
    rw [hop, hx, Option.some.injEq] at he
    subst he
    rw [ackers_append_of_acks hin] at hq
    exact hreach hq
  · rwa [ackers_append_of_not_acks hin] at hq

/-- The walk ends at the frontier of the ops with a quorum. -/
theorem walkCommit_tallied (hview : s.view = s₀.view) (hcount : s.replicaCount = s₀.replicaCount)
    (hidle : s.isTransferring = false) (hpipe : TalliedPipeline s₀ (acks ++ [a]) s.pipeline)
    (hcommit : s.commitMax ∈ Runs (quorumAcked s₀ acks) s₀.commitMax) :
    Tallied s₀ (acks ++ [a]) s.walkCommit.1 := by
  have hfuel : ∀ op, s.commitMax + s.pipeline.tailOp < op →
      quorumAt s.pipeline op = false := by
    intro op hop
    by_contra hmark
    rw [Bool.not_eq_false, quorumAt, Option.any_eq_true] at hmark
    obtain ⟨x, hx, -⟩ := hmark
    obtain ⟨hmem, hxop⟩ := messageByOp_eq_some.mp hx
    have := op_le_tailOp hmem
    omega
  have hgreat := isGreatest_resume
    (fun op h => hpipe.quorumAt ▸ quorumAcked_mono (a := a) op h) hcommit hfuel
  have hle : s.commitMax ≤ frontier (quorumAt s.pipeline) s.pipeline.tailOp
      s.commitMax := frontier_mem_runs.1
  unfold walkCommit
  simp only
  split_ifs with hlt
  · refine ⟨hview, hcount, hidle, hpipe, ?_⟩
    simp only [advanceCommitMax, max_eq_right hle]
    exact hpipe.quorumAt ▸ hgreat
  · refine ⟨hview, hcount, hidle, hpipe, ?_⟩
    rw [le_antisymm (not_lt.mp hlt) hle] at hgreat
    exact hpipe.quorumAt ▸ hgreat

/-- Either an ack adds no replica to any entry and is ignored, or it is new for the entry it names
and is recorded there. -/
theorem handlePrepareOk_tallied (h : Tallied s₀ acks s) (hcmd : a.command = .prepareOk)
    (hrep : a.replica < s₀.replicaCount) :
    ((∃ reason, s.handlePrepareOk a = some (s, .ignored reason)) ∧
      ∀ e ∈ s₀.pipeline.entries, a.AcksIn s₀.view e.header →
        a.replica ∈ ackers s₀.view acks e.header) ∨
    ∃ e, s₀.pipeline.messageByOp a.op = some e ∧ a.view = s₀.view ∧
      e.header.checksum = a.prepareChecksum ∧
      s.handlePrepareOk a = some (s.recordAck a, .accepted
        (insert a.replica (ackers s₀.view acks e.header)).card
        (decide (s₀.quorum ≤ (insert a.replica (ackers s₀.view acks e.header)).card) &&
          !decide (s₀.quorum ≤ (ackers s₀.view acks e.header).card))) := by
  have hrep' : ¬ s.replicaCount ≤ a.replica := by rw [h.count]; omega
  unfold handlePrepareOk
  simp only [hcmd, ne_eq, not_true_eq_false, ↓reduceIte, hrep', h.idle, Bool.false_eq_true,
    h.pipeline.messageByOp]
  rcases lt_trichotomy a.view s.view with hlt | hview | hgt
  · refine .inl ⟨⟨.olderView, by simp only [hlt, ↓reduceIte]⟩, fun e _ hin => ?_⟩
    exact absurd (hin.1.trans h.view.symm) hlt.ne
  swap
  · refine .inl ⟨⟨.newerView, by simp only [hgt, Nat.lt_asymm hgt, ↓reduceIte]⟩, fun e _ hin => ?_⟩
    exact absurd (hin.1.trans h.view.symm) hgt.ne'
  simp only [hview, lt_self_iff_false, ↓reduceIte]
  cases he : s₀.pipeline.messageByOp a.op with
  | none =>
    refine .inl ⟨⟨.unknownPrepare, rfl⟩, fun e hmem hin => ?_⟩
    rw [messageByOp_eq_some.mpr ⟨hmem, hin.2.1.symm⟩] at he
    cases he
  | some e =>
    have hmem := messageByOp_eq_some.mp he
    have hone : ∀ x ∈ s₀.pipeline.entries, a.AcksIn s₀.view x.header → x = e := fun x hx hin =>
      eq_of_op_eq hx hmem.1 (hin.2.1.symm.trans hmem.2.symm)
    simp only [Option.map_some]
    by_cases hsum : e.header.checksum = a.prepareChecksum
    swap
    · refine .inl ⟨⟨.checksumMismatch, by simp [tally, hsum]⟩, fun x hx hin => ?_⟩
      exact absurd (hone x hx hin ▸ hin.2.2.symm) hsum
    by_cases hdup : a.replica ∈ ackers s₀.view acks e.header
    · refine .inl ⟨⟨.duplicateAck, by simp [tally, hsum, hasAck, hdup]⟩, ?_⟩
      exact fun x hx hin => hone x hx hin ▸ hdup
    · refine .inr ⟨e, rfl, h.view, hsum, ?_⟩
      simp [tally, hsum, hasAck, hdup, addAck, ackCount, h.quorum]

/-- **One ack** leads from the tally so far to the tally with it. -/
theorem ackQuorumReached_tallied (h : Tallied s₀ acks s) (hcmd : a.command = .prepareOk)
    (hrep : a.replica < s₀.replicaCount) :
    ∃ s' b, s.ackQuorumReached a = some (s', b) ∧ Tallied s₀ (acks ++ [a]) s' := by
  unfold ackQuorumReached
  rcases handlePrepareOk_tallied h hcmd hrep with ⟨⟨reason, heq⟩, hno⟩ | ⟨e, he, hview, hsum, heq⟩
  · exact ⟨s, false, by rw [heq], h.append_of_mem hno⟩
  · have hpipe := h.pipeline_recordAck hview he hsum
    rw [heq]
    by_cases hreach : s₀.quorum ≤ (insert a.replica (ackers s₀.view acks e.header)).card ∧
        ¬ s₀.quorum ≤ (ackers s₀.view acks e.header).card
    · simp only [hreach.1, hreach.2, decide_true, decide_false, Bool.not_false, Bool.and_self]
      exact ⟨_, _, rfl, walkCommit_tallied h.view h.count h.idle hpipe h.commit.1⟩
    · have hfalse : (decide (s₀.quorum ≤ (insert a.replica (ackers s₀.view acks e.header)).card) &&
          !decide (s₀.quorum ≤ (ackers s₀.view acks e.header).card)) = false := by
        simpa using hreach
      have hmark := quorumAcked_append_of_not_reached he fun h1 => by
        by_contra h2
        exact hreach ⟨h1, h2⟩
      simp only [hfalse]
      exact ⟨_, _, rfl, h.view, h.count, h.idle, hpipe, hmark ▸ h.commit⟩

/-- **A run of acks**, by induction on the acks still to come. -/
theorem ackRun_tallied {rest : List PrepareOkHeader} (h : Tallied s₀ acks s)
    (hok : ∀ b ∈ rest, b.command = .prepareOk ∧ b.replica < s₀.replicaCount) :
    ∃ s', s.ackRun rest = some s' ∧ Tallied s₀ (acks ++ rest) s' := by
  induction rest generalizing s acks with
  | nil => exact ⟨s, rfl, by rwa [append_nil]⟩
  | cons b rest ih =>
    obtain ⟨hcmd, hrep⟩ := hok b mem_cons_self
    obtain ⟨s₁, r, heq, h₁⟩ := ackQuorumReached_tallied h hcmd hrep
    obtain ⟨s', hrun, h'⟩ := ih h₁ fun x hx => hok x (mem_cons_of_mem _ hx)
    refine ⟨s', ?_, by rwa [append_assoc, singleton_append] at h'⟩
    rw [ackRun, heq]
    exact hrun

end Step

/-- A primary's queue before any ack arrived. -/
def NoAcks (p : LocalPipeline) : Prop :=
  ∀ e ∈ p.entries, e.okFromReplicas = ∅ ∧ e.okQuorumReceived = false

theorem tallied_nil {s : VsrConsensus} (hidle : s.isTransferring = false)
    (hno : NoAcks s.pipeline) : Tallied s [] s := by
  have hmark : ∀ op, quorumAcked s [] op = false := by
    intro op
    have := s.quorum_pos
    simp only [quorumAcked, Option.any_eq_false, ackers, filter_nil, map_nil,
      toFinset_nil, Finset.card_empty]
    intro e _
    rw [decide_eq_false_iff_not]
    omega
  refine ⟨rfl, rfl, hidle, ?_, self_mem_runs, fun m hm => ?_⟩
  · have hid : ∀ e ∈ s.pipeline.entries, tally s.view s.quorum [] e = e := by
      rintro ⟨header, oks, received⟩ he
      obtain ⟨rfl, rfl⟩ := hno _ he
      have := s.quorum_pos
      simp only [tally, ackers, filter_nil, map_nil, toFinset_nil,
        Finset.card_empty, mk.injEq, true_and, decide_eq_false_iff_not]
      omega
    exact (map_congr_left hid).trans (map_id' _) |>.symm
  · by_contra hlt
    exact Bool.false_ne_true
      ((hmark _).symm.trans (hm.2 (s.commitMax + 1) (Nat.lt_succ_self _) (not_le.mp hlt)))

/-- **The commit point is exact.** From a queue without acks, and outside a state transfer, any
sequence of acks takes `commit_max` to the largest bound of a run of ops that are queued and
acknowledged, in this view and with their own checksum, by a replication quorum of distinct
replicas. It does not pass the tail unless it was past it, and the same acks in another order end at
the same point. -/
theorem ackRun_commit_exact (s : VsrConsensus) (acks : List PrepareOkHeader)
    (hidle : s.isTransferring = false) (hno : NoAcks s.pipeline)
    (hok : ∀ a ∈ acks, a.command = .prepareOk ∧ a.replica < s.replicaCount) :
    ∃ t, s.ackRun acks = some t ∧
      IsGreatest { m | s.commitMax ≤ m ∧ ∀ op, s.commitMax < op → op ≤ m →
        ∃ e ∈ s.pipeline.entries, e.header.op = op ∧
          s.quorum ≤ (ackers s.view acks e.header).card } t.commitMax ∧
      t.commitMax ≤ max s.commitMax s.pipeline.tailOp ∧
      ∀ acks', (∀ a, a ∈ acks' ↔ a ∈ acks) →
        ∃ t', s.ackRun acks' = some t' ∧ t'.commitMax = t.commitMax := by
  have hstart := tallied_nil hidle hno
  have hset : ∀ l, Runs (quorumAcked s l) s.commitMax = { m | s.commitMax ≤ m ∧
      ∀ op, s.commitMax < op → op ≤ m → ∃ e ∈ s.pipeline.entries, e.header.op = op ∧
        s.quorum ≤ (ackers s.view l e.header).card } := by
    intro l
    simp only [Runs, quorumAcked, Option.any_eq_true, LocalPipeline.messageByOp_eq_some,
      decide_eq_true_eq, and_assoc]
  obtain ⟨t, hrun, ht⟩ := ackRun_tallied hstart hok
  rw [nil_append] at ht
  refine ⟨t, hrun, hset acks ▸ ht.commit, ?_, fun acks' hsame => ?_⟩
  · -- the op at the commit point is queued, or the point did not move
    rcases Nat.eq_or_lt_of_le ht.commit.1.1 with heq | hlt
    · exact heq ▸ le_max_left ..
    · have hmem : t.commitMax ∈ Runs (quorumAcked s acks) s.commitMax := ht.commit.1
      rw [hset] at hmem
      obtain ⟨e, he, hop, -⟩ := hmem.2 _ hlt le_rfl
      exact hop ▸ (LocalPipeline.op_le_tailOp he).trans (le_max_right ..)
  · obtain ⟨t', hrun', ht'⟩ := ackRun_tallied hstart fun a ha => hok a ((hsame a).mp ha)
    rw [nil_append] at ht'
    have hmarks : quorumAcked s acks' = quorumAcked s acks := by
      funext op
      simp only [quorumAcked, ackers_congr hsame]
    exact ⟨t', hrun', (hmarks ▸ ht'.commit).unique ht.commit⟩

/-! ## A group of three -/

/-- The primary of three with ops 1 to 3 in flight, at a stage of a state transfer. -/
def trioPrimary (stage : StateTransferStage) : VsrConsensus where
  cluster := 1
  replica := 0
  replicaCount := 3
  group := metadataGroup
  status := .normal
  stateTransferStage := stage
  sequence := 3
  pipeline := ⟨[{ header := { command := .prepare, op := 1, checksum := 7 } },
    { header := { command := .prepare, op := 2, parent := 7, checksum := 8 } },
    { header := { command := .prepare, op := 3, parent := 8, checksum := 9 } }], by decide⟩

theorem noAcks_trioPrimary (stage : StateTransferStage) : NoAcks (trioPrimary stage).pipeline := by
  simp [NoAcks, trioPrimary]

def okFor (op replica : Nat) : PrepareOkHeader := ⟨.prepareOk, replica, 0, op, op + 6⟩

/-- Op 2 has its quorum before op 1, op 3 has the primary's ack alone. -/
def lateAcks : List PrepareOkHeader := [okFor 2 1, okFor 2 0, okFor 3 0, okFor 1 2, okFor 1 0]

theorem ackRun_commit_exact_trio :
    ∃ t, (trioPrimary .idle).ackRun lateAcks = some t ∧ t.commitMax = 2 ∧
      ∃ t', (trioPrimary .idle).ackRun lateAcks.reverse = some t' ∧ t'.commitMax = 2 := by
  obtain ⟨t, hrun, hgreat, -, hany⟩ := ackRun_commit_exact (trioPrimary .idle) lateAcks rfl
    (noAcks_trioPrimary _) (by decide)
  have htwo : 2 ≤ t.commitMax := by
    refine hgreat.2 ⟨by decide, fun op h1 h2 => ?_⟩
    have hop : op = 1 ∨ op = 2 := by
      change 0 < op at h1
      omega
    rcases hop with rfl | rfl <;> decide
  have hthree : ¬ 3 ≤ t.commitMax := fun h => absurd (hgreat.1.2 3 (by decide) h) (by decide)
  have hcommit : t.commitMax = 2 := by omega
  obtain ⟨t', hrun', hsame⟩ := hany lateAcks.reverse fun _ => mem_reverse
  exact ⟨t, hrun, hcommit, t', hrun', hsame.trans hcommit⟩

/-- A `Normal` primary in a state transfer ignores the ack that would complete a quorum. -/
theorem ackRun_stalls_in_transfer :
    (trioPrimary .fetching).status = .normal ∧ (trioPrimary .fetching).isPrimary = true ∧
      NoAcks (trioPrimary .fetching).pipeline ∧
      (∃ e ∈ (trioPrimary .fetching).pipeline.entries, e.header.op = 1 ∧
        (trioPrimary .fetching).quorum ≤
          (ackers (trioPrimary .fetching).view lateAcks e.header).card) ∧
      ((trioPrimary .fetching).ackRun lateAcks).map (·.commitMax) = some 0 :=
  ⟨rfl, rfl, noAcks_trioPrimary _, by decide, by decide⟩

end Iggy
