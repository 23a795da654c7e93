import Iggy.Consensus.Replica

/-!
# Taking a prepare back

Source: impls.rs:2461-2609.

A primary claims an op before its journal holds it: `push_prepare_entry` advances the sequencer and
the parent checksum. When the append fails, `rollback_pipelined_prepare` hands the op back, unless
something has moved since. `PrimaryRun` interleaves these with what keeps the head and the pipeline,
and with view changes, which end with a cleared one. The prepare timeout is not modelled.
-/

namespace Iggy

open List LocalPipeline

/-- `PrepareRollback` (impls.rs:493-530). -/
inductive PrepareRollback
  | unwound
  | notPreAdvanced
  | superseded (view : Nat)
  | overtaken (sequence : Nat)
  | tailMismatch
  deriving DecidableEq

namespace VsrConsensus

variable (s : VsrConsensus)

def pushPrepareEntry (entry : PipelineEntry) : Option VsrConsensus :=
  if s.isPrimary then
    (s.pipeline.push s.prepareQueueMax entry).map fun pipeline =>
      { s with
        pipeline
        sequence := entry.header.op
        lastPrepareChecksum := entry.header.checksum
        lastTimestamp := max s.lastTimestamp entry.header.timestamp }
  else none

def popCommittedPrepare : VsrConsensus :=
  { s with pipeline := s.pipeline.popMessage }

def rollbackPipelinedPrepare (header : PrepareHeader) : VsrConsensus × PrepareRollback :=
  if !s.isPrimary then (s, .notPreAdvanced)
  -- Before the sequencer is compared: after a view change it may name another prepare.
  else if header.view ≠ s.view ∨ s.status ≠ .normal then (s, .superseded s.view)
  else if s.sequence ≠ header.op then (s, .overtaken s.sequence)
  else match s.pipeline.removePrepareTail header.op header.checksum with
    | none => (s, .tailMismatch)
    | some pipeline =>
      ({ s with pipeline, sequence := header.op - 1, lastPrepareChecksum := header.parent },
        .unwound)

/-! ## Runs of a primary -/

/-- The next op, chained to the last prepare, with a checksum no earlier prepare has. -/
structure Mints (s : VsrConsensus) (pushed : List PrepareHeader) (header : PrepareHeader) :
    Prop where
  op : header.op = s.sequence + 1
  parent : header.parent = s.lastPrepareChecksum
  distinct : ∀ earlier ∈ pushed, earlier.checksum ≠ header.checksum

def Keeps (s s' : VsrConsensus) : Prop :=
  s'.sequence = s.sequence ∧ s'.lastPrepareChecksum = s.lastPrepareChecksum ∧
    s'.pipeline = s.pipeline

inductive PrimaryRun (s₀ : VsrConsensus) : List PrepareHeader → VsrConsensus → Prop
  | start : PrimaryRun s₀ [] s₀
  | pushed {pushed : List PrepareHeader} {s s' : VsrConsensus} {entry : PipelineEntry}
      (run : PrimaryRun s₀ pushed s) (minted : s.Mints pushed entry.header)
      (push : s.pushPrepareEntry entry = some s') : PrimaryRun s₀ (entry.header :: pushed) s'
  | popped {pushed : List PrepareHeader} {s : VsrConsensus} (run : PrimaryRun s₀ pushed s) :
      PrimaryRun s₀ pushed s.popCommittedPrepare
  | rolledBack {pushed : List PrepareHeader} {s : VsrConsensus} {header : PrepareHeader}
      (run : PrimaryRun s₀ pushed s) (earlier : header ∈ pushed) :
      PrimaryRun s₀ pushed (s.rollbackPipelinedPrepare header).1
  | kept {pushed : List PrepareHeader} {s s' : VsrConsensus} (run : PrimaryRun s₀ pushed s)
      (keeps : s.Keeps s') : PrimaryRun s₀ pushed s'
  | cleared {pushed : List PrepareHeader} {s s' : VsrConsensus} (run : PrimaryRun s₀ pushed s)
      (clear : s'.pipeline = empty) : PrimaryRun s₀ pushed s'

/-- The queue is made of pushed prepares, and its tail is the head of the log. -/
structure PreAdvanced (s : VsrConsensus) (pushed : List PrepareHeader) : Prop where
  tail : ∀ tail ∈ s.pipeline.entries.getLast?,
    tail.header.op = s.sequence ∧ tail.header.checksum = s.lastPrepareChecksum
  queued : ∀ entry ∈ s.pipeline.entries, entry.header ∈ pushed
  positive : ∀ header ∈ pushed, 0 < header.op
  distinct : ∀ a ∈ pushed, ∀ b ∈ pushed, a.checksum = b.checksum → a = b

/-! ## One step -/

theorem removePrepareTail_eq_some {p q : LocalPipeline} {op checksum : Nat}
    (h : p.removePrepareTail op checksum = some q) :
    ∃ tail, tail.header.op = op ∧ tail.header.checksum = checksum ∧
      p.entries = q.entries ++ [tail] := by
  unfold removePrepareTail at h
  cases hlast : p.entries.getLast? with
  | none => simp [hlast] at h
  | some tail =>
    simp only [hlast, Option.ite_none_left_eq_some, not_or, not_not, Option.some.injEq] at h
    obtain ⟨⟨hop, hchecksum⟩, rfl⟩ := h
    exact ⟨tail, hop, hchecksum, (dropLast_append_getLast? tail hlast).symm⟩

theorem rollbackPipelinedPrepare_spec (header : PrepareHeader) :
    ((s.rollbackPipelinedPrepare header).2 ≠ .unwound ∧
      (s.rollbackPipelinedPrepare header).1 = s) ∨
    ∃ pipeline tail, s.rollbackPipelinedPrepare header =
        ({ s with pipeline, sequence := header.op - 1, lastPrepareChecksum := header.parent },
          .unwound) ∧
      s.pipeline.entries = pipeline.entries ++ [tail] ∧ tail.header.op = header.op ∧
      tail.header.checksum = header.checksum := by
  unfold rollbackPipelinedPrepare
  split_ifs
  · exact .inl ⟨nofun, rfl⟩
  · exact .inl ⟨nofun, rfl⟩
  · exact .inl ⟨nofun, rfl⟩
  · split
    · exact .inl ⟨nofun, rfl⟩
    · rename_i pipeline hremoved
      obtain ⟨tail, hop, hchecksum, hentries⟩ := removePrepareTail_eq_some hremoved
      exact .inr ⟨pipeline, tail, rfl, hentries, hop, hchecksum⟩

variable {s : VsrConsensus} {pushed : List PrepareHeader}

theorem PreAdvanced.tail_eq {header : PrepareHeader} {rest : List PipelineEntry}
    {tail : PipelineEntry} (inv : s.PreAdvanced pushed) (earlier : header ∈ pushed)
    (hentries : s.pipeline.entries = rest ++ [tail])
    (hchecksum : tail.header.checksum = header.checksum) : tail.header = header :=
  inv.distinct _ (inv.queued tail (by simp [hentries])) _ earlier hchecksum

theorem PreAdvanced.rollback {header : PrepareHeader} (inv : s.PreAdvanced pushed)
    (earlier : header ∈ pushed) : (s.rollbackPipelinedPrepare header).1.PreAdvanced pushed := by
  rcases s.rollbackPipelinedPrepare_spec header with
    ⟨_, hsame⟩ | ⟨pipeline, tail, hunwound, hentries, _, hchecksum⟩
  · rwa [hsame]
  · have htail := inv.tail_eq earlier hentries hchecksum
    rw [hunwound]
    refine ⟨fun last hlast => ?_, fun entry hentry => ?_, inv.positive, inv.distinct⟩
    · -- The new tail is what the removed prepare was chained to.
      have hrun := s.pipeline.run
      rw [hentries, map_append, isChain_append] at hrun
      have hfollows : Follows last.header tail.header :=
        hrun.2.2 last.header (by simpa using ⟨last, hlast, rfl⟩) tail.header (by simp)
      rw [htail] at hfollows
      have hop := hfollows.1
      exact ⟨by simp only; omega, hfollows.2.symm⟩
    · exact inv.queued entry (by simp [hentries, hentry])

variable {entry : PipelineEntry}

theorem push_eq_some {p q : LocalPipeline} {prepareQueueMax : Nat}
    (h : p.push prepareQueueMax entry = some q) : q.entries = p.entries ++ [entry] := by
  unfold push at h
  split_ifs at h
  cases h
  rfl

theorem PreAdvanced.push {s' : VsrConsensus} (inv : s.PreAdvanced pushed)
    (minted : s.Mints pushed entry.header) (h : s.pushPrepareEntry entry = some s') :
    s'.PreAdvanced (entry.header :: pushed) := by
  unfold pushPrepareEntry at h
  split_ifs at h
  obtain ⟨pipeline, hpush, rfl⟩ := Option.map_eq_some_iff.mp h
  have hentries := push_eq_some hpush
  refine ⟨fun tail htail => ?_, fun queued hqueued => ?_, fun header hheader => ?_, ?_⟩
  · obtain rfl : entry = tail := by simpa [hentries] using htail
    exact ⟨rfl, rfl⟩
  · rw [hentries, mem_append, mem_singleton] at hqueued
    rcases hqueued with hold | rfl
    · exact mem_cons_of_mem _ (inv.queued queued hold)
    · exact mem_cons_self
  · rcases mem_cons.mp hheader with rfl | hold
    · have := minted.op
      omega
    · exact inv.positive header hold
  · intro a ha b hb hab
    rcases mem_cons.mp ha with rfl | ha <;> rcases mem_cons.mp hb with rfl | hb
    · rfl
    · exact absurd hab.symm (minted.distinct b hb)
    · exact absurd hab (minted.distinct a ha)
    · exact inv.distinct a ha b hb hab

theorem PreAdvanced.pop (inv : s.PreAdvanced pushed) :
    s.popCommittedPrepare.PreAdvanced pushed where
  tail := by
    intro tail htail
    refine inv.tail tail ?_
    cases hentries : s.pipeline.entries with
    | nil => simp [popCommittedPrepare, popMessage, hentries] at htail
    | cons head rest =>
      have hrest : rest.getLast? = some tail := by
        simpa [popCommittedPrepare, popMessage, hentries] using htail
      rw [Option.mem_def, getLast?_cons, hrest]
      rfl
  queued entry hentry := inv.queued entry (mem_of_mem_tail hentry)
  positive := inv.positive
  distinct := inv.distinct

theorem preAdvanced_of_empty (h : s.pipeline.entries = [])
    (positive : ∀ header ∈ pushed, 0 < header.op)
    (distinct : ∀ a ∈ pushed, ∀ b ∈ pushed, a.checksum = b.checksum → a = b) :
    s.PreAdvanced pushed :=
  ⟨by simp [h], by simp [h], positive, distinct⟩

/-! ## Every run -/

theorem PrimaryRun.preAdvanced {s₀ : VsrConsensus} (idle : s₀.pipeline.entries = [])
    (run : PrimaryRun s₀ pushed s) : s.PreAdvanced pushed := by
  induction run with
  | start => exact preAdvanced_of_empty idle (by simp) (by simp)
  | pushed _ minted push ih => exact ih.push minted push
  | popped _ ih => exact ih.pop
  | rolledBack _ earlier ih => exact ih.rollback earlier
  | kept _ keeps ih =>
    obtain ⟨hsequence, hchecksum, hpipeline⟩ := keeps
    exact ⟨by rw [hpipeline, hsequence, hchecksum]; exact ih.tail,
      by rw [hpipeline]; exact ih.queued, ih.positive, ih.distinct⟩
  | cleared _ clear ih => exact preAdvanced_of_empty (by rw [clear]; rfl) ih.positive ih.distinct

theorem PreAdvanced.pushPrepareEntry_isSome (inv : s.PreAdvanced pushed)
    (minted : s.Mints pushed entry.header) (primary : s.isPrimary = true)
    (room : s.pipeline.entries.length < s.prepareQueueMax) : (s.pushPrepareEntry entry).isSome := by
  have hfollows : ∀ tail, s.pipeline.entries.getLast? = some tail →
      Follows tail.header entry.header := by
    intro tail htail
    obtain ⟨hop, hchecksum⟩ := inv.tail tail htail
    exact ⟨by rw [minted.op, hop], by rw [minted.parent, hchecksum]⟩
  simpa [pushPrepareEntry, LocalPipeline.push, primary, room] using hfollows

/-- **A rollback takes back exactly its prepare, or nothing.** In every run of a primary, an unwound
prepare was the tail, and head, parent chain and queue are those without it; any other result
changes nothing. The queue is a chained run that ends at the head of the log, so the next prepare is
accepted while there is room. -/
theorem rollback_exact (s₀ s : VsrConsensus) (pushed : List PrepareHeader)
    (idle : s₀.pipeline.entries = []) (run : PrimaryRun s₀ pushed s) :
    (∀ header ∈ pushed,
      ((s.rollbackPipelinedPrepare header).2 = .unwound →
        (s.rollbackPipelinedPrepare header).1.sequence + 1 = header.op ∧
        (s.rollbackPipelinedPrepare header).1.lastPrepareChecksum = header.parent ∧
        ∃ tail, tail.header = header ∧
          s.pipeline.entries = (s.rollbackPipelinedPrepare header).1.pipeline.entries ++ [tail]) ∧
      ((s.rollbackPipelinedPrepare header).2 ≠ .unwound →
        (s.rollbackPipelinedPrepare header).1 = s)) ∧
    (s.pipeline.entries.map (·.header)).IsChain Follows ∧
    (∀ tail ∈ s.pipeline.entries.getLast?,
      tail.header.op = s.sequence ∧ tail.header.checksum = s.lastPrepareChecksum) ∧
    ∀ entry : PipelineEntry, s.Mints pushed entry.header → s.isPrimary = true →
      s.pipeline.entries.length < s.prepareQueueMax → (s.pushPrepareEntry entry).isSome := by
  have inv := run.preAdvanced idle
  refine ⟨fun header earlier => ?_, s.pipeline.run, inv.tail, fun entry minted primary room =>
    inv.pushPrepareEntry_isSome minted primary room⟩
  rcases s.rollbackPipelinedPrepare_spec header with
    ⟨hresult, hsame⟩ | ⟨pipeline, tail, hunwound, hentries, _, hchecksum⟩
  · exact ⟨fun h => absurd h hresult, fun _ => hsame⟩
  · rw [hunwound]
    have hpos := inv.positive header earlier
    exact ⟨fun _ => ⟨Nat.sub_add_cancel hpos, rfl, tail, inv.tail_eq earlier hentries hchecksum,
      hentries⟩, fun h => absurd rfl h⟩

/-- A single primary with room for two prepares. -/
def idlePrimary : VsrConsensus where
  cluster := 1
  replica := 0
  replicaCount := 1
  group := 0
  status := .normal
  prepareQueueMax := 2
  replica_lt := Nat.zero_lt_one
  commit_le := fresh_commit_le

def mintedPrepare (op : Nat) : PipelineEntry :=
  { header := { dvcBlank op with checksum := 10 + op, parent := if op = 1 then 0 else 9 + op } }

def busyPrimary : VsrConsensus :=
  { idlePrimary with
    pipeline := ⟨[mintedPrepare 1, mintedPrepare 2], by decide⟩
    sequence := 2
    lastPrepareChecksum := 12 }

theorem busyPrimary_run :
    PrimaryRun idlePrimary [(mintedPrepare 2).header, (mintedPrepare 1).header] busyPrimary :=
  .pushed (.pushed .start ⟨rfl, rfl, by simp⟩ rfl) ⟨rfl, rfl, by decide⟩ rfl

/-- The second prepare is taken back, and the first, which is not the newest, stays. -/
theorem rollback_exact_busyPrimary :
    (busyPrimary.rollbackPipelinedPrepare (mintedPrepare 2).header).1.sequence + 1 = 2 ∧
    (busyPrimary.rollbackPipelinedPrepare (mintedPrepare 2).header).1.lastPrepareChecksum = 11 ∧
    (busyPrimary.rollbackPipelinedPrepare (mintedPrepare 1).header).1 = busyPrimary := by
  have hexact := (rollback_exact idlePrimary busyPrimary _ rfl busyPrimary_run).1
  obtain ⟨hsequence, hchecksum, -⟩ := (hexact (mintedPrepare 2).header (by simp)).1 rfl
  exact ⟨hsequence, hchecksum, (hexact (mintedPrepare 1).header (by simp)).2 (by decide)⟩

/-- **A full queue panics**: the prepare follows the tail, and the push still asserts. -/
theorem push_panics_when_full :
    PrimaryRun idlePrimary [(mintedPrepare 2).header, (mintedPrepare 1).header] busyPrimary ∧
      busyPrimary.Mints [(mintedPrepare 2).header, (mintedPrepare 1).header]
        (mintedPrepare 3).header ∧
      busyPrimary.isPrimary = true ∧ (busyPrimary.pushPrepareEntry (mintedPrepare 3)).isNone := by
  refine ⟨busyPrimary_run, ⟨rfl, rfl, by decide⟩, rfl, rfl⟩

end VsrConsensus

end Iggy
