import Iggy.Partitions.RecoveryChain

/-!
# Recovery converges

`recover_segment_bounds` keeps the index it finds or rebuilds it from the log (`recover_runs`).
Over the log cut to the bounds, a second run finds the same bounds again: with the rebuilt index
(`recover_rebuilt`), with the index that was kept (`recover_accepted`), and, where the log is always
walked from byte 0, with whatever index was there before (`recover_kept`).
-/

namespace Iggy.SegmentRecovery

open List Lib Batch Option LogWalk
open Poll (IggyIndex iggyIndexSize wordMax)

/-- What the runs do with the index may differ. -/
structure WalkedBounds.Same (b b' : WalkedBounds) : Prop where
  startTimestamp : b'.startTimestamp = b.startTimestamp
  endTimestamp : b'.endTimestamp = b.endTimestamp
  endOffset : b'.endOffset = b.endOffset
  messagesSize : b'.messagesSize = b.messagesSize

theorem WalkedBounds.Same.refl : (bounds : Option WalkedBounds) →
    Option.Rel WalkedBounds.Same bounds bounds
  | none => .none
  | some _ => .some ⟨rfl, rfl, rfl, rfl⟩

variable {xxh3 : Bytes → UInt64} {partitionId : Nat} {log : Bytes} {startOffset : Nat}
  {headers : List Header} {header : Header} {files : SegmentFiles} {durableSegments : Bool}
  {bounds : Option WalkedBounds} {b : WalkedBounds} {budget after : ProbeBudget}

theorem LogWalk.startTimestamp_foldl {w : LogWalk} {timestamp : Nat}
    (h : w.startTimestamp = some timestamp) (headers : List Header) :
    (headers.foldl accept w).startTimestamp = some timestamp := by
  induction headers generalizing w with
  | nil => exact h
  | cons header rest ih =>
    refine ih ?_
    unfold accept
    split
    · exact congrArg some (by rw [h, getD_some])
    · exact h

variable {a : AnchoredWalk}

theorem same_bounds_walked {rest : List Header} (size : Nat) (hfull : 0 < header.messageCount)
    (hposition : a.position = chainSize (header :: rest))
    (hends : EndsAlike (walked startOffset (header :: rest)) a) :
    Option.Rel WalkedBounds.Same (walked startOffset (header :: rest)).bounds
      (some ⟨header.baseTimestamp, a.endTimestamp, a.endOffset, a.position, size, none⟩) := by
  have hstart : (walked startOffset (header :: rest)).startTimestamp = some header.baseTimestamp := by
    refine startTimestamp_foldl ?_ rest
    rw [accept, if_pos hfull]
    rfl
  rw [bounds, hstart]
  exact .some ⟨rfl, hends.2, hends.1, hposition.trans position_walked.symm⟩

/-! ## An index over the cut log -/

variable {first : IggyIndex}

/-- The walk from the first entry is the walk from byte 0. -/
theorem acceptIndex_kept (hchain : Chain xxh3 partitionId log 0 startOffset headers)
    (hoffset : first.offset = startOffset) (hposition : first.position = 0)
    (hmatch : entryMatches partitionId (log.take (chainSize headers)) first = true)
    (entryCount : Nat) (walk : AnchoredWalk) (budget : ProbeBudget) :
    ∃ again, acceptIndex xxh3 partitionId (log.take (chainSize headers)) startOffset false first
        entryCount walk budget = .ok (again, budget) ∧
      Option.Rel WalkedBounds.Same (walked startOffset headers).bounds again := by
  have hsize := hchain.size_le
  obtain ⟨own, hpeek, -, -, -, hfull, hle⟩ := entryMatches_eq_true.mp hmatch
  have hlarge : 256 ≤ own.batchLength := headerSize_le_of_peekHeader hpeek
  rw [length_take, min_eq_left hsize] at hle
  cases headers with
  | nil =>
    rw [chainSize_nil] at hle
    omega
  | cons header rest =>
    obtain ⟨hproven, -, hbase, -⟩ := hchain.take hsize (Nat.zero_add _).le
    rw [hposition, (provenBatchAt_eq_some.mp hproven).1, some.injEq] at hpeek
    subst hpeek
    rw [← nil_append (header :: rest)] at hchain
    obtain ⟨a, hwalk, hstart, hend, hends⟩ :=
      walkChainFromAnchor_kept hchain hfull (hoffset.trans hbase.symm) hposition
    rw [nil_append] at hwalk hend hends
    refine ⟨_, ?_, same_bounds_walked (entryCount * iggyIndexSize) hfull hend hends⟩
    have hwhole : a.position = (log.take (chainSize (header :: rest))).length := by
      rw [hend, length_take, min_eq_left hsize]
    unfold acceptIndex
    rw [if_neg Bool.false_ne_true, hwalk, ok_bind, hstart]
    exact if_pos hwhole

theorem rebuildIndex_of_not_durable (entryCount durablePosition : Nat) :
    rebuildIndex xxh3 partitionId log startOffset false entryCount durablePosition budget =
      recoverByWalkingLog xxh3 partitionId log startOffset budget := by
  unfold rebuildIndex
  cases recoverByWalkingLog xxh3 partitionId log startOffset budget <;> rfl

/-- Under every index whose last entry does not lead to a refusal. -/
theorem recover_kept (hchain : Chain xxh3 partitionId log 0 startOffset headers)
    (hlog : files.log = log.take (chainSize headers))
    (hanchor : ∀ last, (indexEntries files.index).getLast? = some last →
      (indexIsConsistent partitionId files.log startOffset
        (indexEntries files.index)).structurallyConsistent = true →
      ∃ a, walkChainFromAnchor xxh3 partitionId files.log startOffset last = .ok a)
    (budget : ProbeBudget) :
    ∃ again, recoverSegmentBounds xxh3 partitionId files startOffset false budget =
        .ok (again, budget) ∧
      Option.Rel WalkedBounds.Same (walked startOffset headers).bounds again := by
  have hwalked := recoverByWalkingLog_kept hchain budget
  rw [← hlog] at hwalked
  have hsame := WalkedBounds.Same.refl (walked startOffset headers).bounds
  unfold recoverSegmentBounds
  dsimp only
  split
  · rename_i first last hfirst hlast
    split
    · rename_i hconsistent
      obtain ⟨a, ha⟩ := hanchor last hlast hconsistent
      rw [ha, ok_bind]
      split
      · have hmeasure : measureStepBack xxh3 partitionId files.log startOffset false
            (indexEntries files.index) budget = .ok budget := if_neg Bool.false_ne_true
        rw [hmeasure, ok_bind, rebuildIndex_of_not_durable]
        exact ⟨_, hwalked, hsame⟩
      · split
        · rename_i hmatch
          obtain ⟨hmappings, -, -, hstart⟩ := validateEntries_consistent hconsistent
          obtain ⟨rest, hentries⟩ := head?_eq_some_iff.mp hfirst
          obtain ⟨hoffset, hposition⟩ := hstart rfl first rest hentries
          rw [indexIsConsistent, hmappings, Bool.true_and, List.all_eq_true] at hmatch
          have hown := hmatch first (mem_of_head? hfirst)
          rw [hlog] at hown ⊢
          exact acceptIndex_kept hchain hoffset hposition hown _ _ _
        · rw [rebuildIndex_of_not_durable]
          exact ⟨_, hwalked, hsame⟩
    · exact ⟨_, hwalked, hsame⟩
  · split
    · exact ⟨_, hwalked, hsame⟩
    · rename_i hempty
      refine ⟨none, rfl, ?_⟩
      have hsize := hchain.size_le
      have hlength := hchain.length_le_chainSize
      rw [hlog, length_take, min_eq_left hsize] at hempty
      rw [eq_nil_of_length_eq_zero (show headers.length = 0 by omega)]
      exact .none

/-! ## The rebuilt index over the cut log -/

namespace Rebuilt

variable {w : LogWalk} {entries : List IggyIndex}

section

variable (h : Rebuilt headers w entries)
include h

section

variable (hchain : Chain xxh3 partitionId log 0 startOffset headers)
include hchain

theorem proven {e : IggyIndex} (he : e ∈ entries) :
    ∃ header, provenBatchAt xxh3 (log.take (chainSize headers)) e.position = some header ∧
      header.partitionId = partitionId ∧ header.baseOffset = e.offset ∧
      header.baseTimestamp = e.timestamp ∧ 0 < header.messageCount := by
  obtain ⟨before, own, rest, rfl, hfull, rfl⟩ := h.named e he
  have hkept := (hchain.take hchain.size_le (Nat.zero_add _).le).drop
  rw [Nat.zero_add] at hkept
  exact ⟨own, hkept.1, hkept.2.1, rfl, rfl, hfull⟩

theorem matches_kept {e : IggyIndex} (he : e ∈ entries) :
    entryMatches partitionId (log.take (chainSize headers)) e = true := by
  obtain ⟨own, hproven, hpartition, hoffset, htimestamp, hfull⟩ := h.proven hchain he
  obtain ⟨hpeek, hle, -⟩ := provenBatchAt_eq_some.mp hproven
  exact entryMatches_eq_true.mpr ⟨own, hpeek, hpartition, hoffset, htimestamp, hfull, hle⟩

theorem indexEntries_eq (hlog : log.length < 2 ^ 64) : indexEntries w.rebuiltIndex = entries := by
  rw [h.bytes]
  refine indexEntries_flatMap fun e he => ?_
  obtain ⟨own, hproven, -, hoffset, htimestamp, -⟩ := h.proven hchain he
  obtain ⟨hpeek, hle, -⟩ := provenBatchAt_eq_some.mp hproven
  obtain ⟨hbase, hbaseTimestamp⟩ := word_of_peekHeader hpeek
  rw [length_take] at hle
  exact readEntry_entryBytes (hoffset ▸ hbase) (htimestamp ▸ hbaseTimestamp) (by omega)

end

end

end Rebuilt

/-- The last entry leads through the rest of the chain. -/
theorem recover_rebuilt (hchain : Chain xxh3 partitionId log 0 startOffset headers)
    (hbounds : (walked startOffset headers).bounds = some b) (hlt : log.length < 2 ^ 64)
    (hlog : files.log = log.take (chainSize headers))
    (hindex : files.index = (walked startOffset headers).rebuiltIndex) (durableSegments : Bool)
    (budget : ProbeBudget) :
    ∃ again, recoverSegmentBounds xxh3 partitionId files startOffset durableSegments budget =
        .ok (again, budget) ∧ Option.Rel WalkedBounds.Same (some b) again := by
  obtain ⟨entries, hrebuilt⟩ := exists_rebuilt hchain
  have hentries : indexEntries files.index = entries := by
    rw [hindex, hrebuilt.indexEntries_eq hchain hlt]
  have hanchor : ∀ last, entries.getLast? = some last →
      ∃ a, walkChainFromAnchor xxh3 partitionId files.log startOffset last = .ok a ∧
        a.startTimestamp ≠ none ∧ a.position = chainSize headers ∧
        EndsAlike (walked startOffset headers) a := fun last hlast => by
    obtain ⟨before, own, rest, rfl, hfull, rfl⟩ := hrebuilt.named last (mem_of_getLast? hlast)
    obtain ⟨a, hwalk, hstart, hends⟩ := walkChainFromAnchor_kept hchain hfull
      (e := entryOf before own) rfl rfl
    exact ⟨a, hlog ▸ hwalk, by rw [hstart]; exact some_ne_none _, hends⟩
  cases durableSegments with
  | false =>
    rw [← hbounds]
    refine recover_kept hchain hlog (fun last hlast _ => ?_) budget
    obtain ⟨a, hwalk, -⟩ := hanchor last (hentries ▸ hlast)
    exact ⟨a, hwalk⟩
  | true =>
    have hsize := hchain.size_le
    unfold recoverSegmentBounds
    rw [hentries]
    dsimp only
    split
    · rename_i first last hfirst hlast
      split
      · rename_i hconsistent
        obtain ⟨a, hwalk, hstarted, hposition, hends⟩ := hanchor last hlast
        have hmatch : (indexIsConsistent partitionId files.log startOffset entries).mappingsMatch =
            true := by
          rw [indexIsConsistent, (validateEntries_consistent hconsistent).1, Bool.true_and,
            List.all_eq_true, hlog]
          exact fun e he => hrebuilt.matches_kept hchain he
        obtain ⟨rest, hcons⟩ := head?_eq_some_iff.mp hfirst
        obtain ⟨hstart, -⟩ := hrebuilt.first first rest hcons
        have hprobe : refuseIfSurvivorPastDamage xxh3 files.log a.position (some a.endOffset)
            startOffset budget = .ok budget :=
          if_pos (by rw [hlog, length_take, min_eq_left hsize, hposition])
        rw [hwalk, ok_bind, if_neg hstarted, if_pos hmatch, acceptIndex, if_pos rfl, hprobe, ok_bind]
        rw [bounds, hstart, map_some] at hbounds
        refine ⟨_, rfl, ?_⟩
        rw [← hbounds]
        exact .some ⟨rfl, hends.2, hends.1, hposition.trans position_walked.symm⟩
      · rw [hlog, recoverByWalkingLog_kept hchain, hbounds]
        exact ⟨_, rfl, .some ⟨rfl, rfl, rfl, rfl⟩⟩
    · rename_i hnone
      have hnil : entries = [] := by
        cases entries with
        | nil => rfl
        | cons e es => exact absurd getLast?_cons (hnone e _ rfl)
      rw [bounds, (hrebuilt.empty hnil).1] at hbounds
      cases hbounds

/-! ## What a run decides -/

/-- A run that keeps the index: with `durable_segments` the walk from the last entry gives the
bounds, without it the walk over the whole log. -/
structure Accepted (xxh3 : Bytes → UInt64) (partitionId : Nat) (files : SegmentFiles)
    (startOffset : Nat) (durableSegments : Bool) (b : WalkedBounds) (first last : IggyIndex)
    (a : AnchoredWalk) : Prop where
  head : (indexEntries files.index).head? = some first
  tail : (indexEntries files.index).getLast? = some last
  consistent : (indexIsConsistent partitionId files.log startOffset
    (indexEntries files.index)).structurallyConsistent = true
  matched : ∀ e ∈ indexEntries files.index, entryMatches partitionId files.log e = true
  walk : walkChainFromAnchor xxh3 partitionId files.log startOffset last = .ok a
  started : a.startTimestamp ≠ none
  bounds : durableSegments = true ∧
      b = ⟨first.timestamp, a.endTimestamp, a.endOffset, a.position,
        (indexEntries files.index).length * iggyIndexSize, none⟩ ∨
    durableSegments = false ∧ ∃ full startTimestamp,
      walkChainFromAnchor xxh3 partitionId files.log startOffset first = .ok full ∧
      full.startTimestamp = some startTimestamp ∧ full.position = files.log.length ∧
      b = ⟨startTimestamp, full.endTimestamp, full.endOffset, full.position,
        (indexEntries files.index).length * iggyIndexSize, none⟩

theorem rebuildIndex_eq_ok {entryCount durablePosition : Nat}
    (h : rebuildIndex xxh3 partitionId log startOffset durableSegments entryCount durablePosition
      budget = .ok (bounds, after)) :
    recoverByWalkingLog xxh3 partitionId log startOffset budget = .ok (bounds, after) := by
  unfold rebuildIndex at h
  simp only [bind_eq_ok] at h
  obtain ⟨⟨rebuilt, left⟩, hwalk, h⟩ := h
  rw [hwalk]
  split at h
  · obtain ⟨_, -, h⟩ := bind_eq_ok.mp h
    exact h
  · exact h

section

variable (h : recoverSegmentBounds xxh3 partitionId files startOffset durableSegments budget = .ok
  (bounds, after))
include h

theorem recover_runs : (∃ left, recoverByWalkingLog xxh3 partitionId files.log startOffset left =
      .ok (bounds, after)) ∨
    ∃ b first last a, bounds = some b ∧
      Accepted xxh3 partitionId files startOffset durableSegments b first last a := by
  unfold recoverSegmentBounds at h
  dsimp only at h
  split at h
  · rename_i first last hfirst hlast
    split at h
    · rename_i hconsistent
      obtain ⟨a, hwalk, h⟩ := bind_eq_ok.mp h
      split at h
      · obtain ⟨_, -, h⟩ := bind_eq_ok.mp h
        exact .inl ⟨_, rebuildIndex_eq_ok h⟩
      · rename_i hstarted
        split at h
        · rename_i hmatch
          rw [indexIsConsistent, (validateEntries_consistent hconsistent).1, Bool.true_and,
            List.all_eq_true] at hmatch
          unfold acceptIndex at h
          split at h <;> rename_i hdurable
          · obtain ⟨_, -, h⟩ := bind_eq_ok.mp h
            obtain ⟨hbounds, -⟩ := Prod.mk.inj (Except.ok.inj h)
            exact .inr ⟨_, first, last, a, hbounds.symm, hfirst, hlast, hconsistent, hmatch, hwalk,
              hstarted, .inl ⟨hdurable, rfl⟩⟩
          · obtain ⟨full, hfull, h⟩ := bind_eq_ok.mp h
            split at h
            · rename_i startTimestamp hstart
              split at h
              · rename_i hwhole
                obtain ⟨hbounds, -⟩ := Prod.mk.inj (Except.ok.inj h)
                exact .inr ⟨_, first, last, a, hbounds.symm, hfirst, hlast, hconsistent, hmatch,
                  hwalk, hstarted, .inr ⟨eq_false_of_ne_true hdurable, full, startTimestamp, hfull,
                    hstart, hwhole, rfl⟩⟩
              · exact .inl ⟨_, h⟩
            · exact .inl ⟨_, h⟩
        · exact .inl ⟨_, rebuildIndex_eq_ok h⟩
    · exact .inl ⟨_, h⟩
  · split at h
    · exact .inl ⟨_, h⟩
    · rename_i hempty
      have hwalk : recoverByWalkingLog xxh3 partitionId files.log startOffset budget =
          .ok (none, budget) := by
        rw [eq_nil_of_length_eq_zero (Nat.eq_zero_of_not_pos hempty)]
        rfl
      exact .inl ⟨budget, hwalk.trans h⟩

theorem recover_cases : (∃ headers, Chain xxh3 partitionId files.log 0 startOffset headers ∧
      bounds = (walked startOffset headers).bounds) ∨
    ∃ b first last a, bounds = some b ∧
      Accepted xxh3 partitionId files startOffset durableSegments b first last a := by
  refine (recover_runs h).imp_left ?_
  rintro ⟨left, hwalk⟩
  exact exists_chain_of_recoverByWalkingLog hwalk

variable {last : IggyIndex}

theorem exists_anchor_of_recover (hlast : (indexEntries files.index).getLast? = some last)
    (hconsistent : (indexIsConsistent partitionId files.log startOffset
      (indexEntries files.index)).structurallyConsistent = true) :
    ∃ a, walkChainFromAnchor xxh3 partitionId files.log startOffset last = .ok a := by
  unfold recoverSegmentBounds at h
  dsimp only at h
  split at h
  · rename_i first own _ hown
    cases hown.symm.trans hlast
    rw [if_pos hconsistent] at h
    obtain ⟨a, hwalk, -⟩ := bind_eq_ok.mp h
    exact ⟨a, hwalk⟩
  · rename_i hnone
    cases hentries : indexEntries files.index with
    | nil =>
      rw [hentries] at hlast
      cases hlast
    | cons e es =>
      exact absurd hlast (hnone e last (by rw [hentries, head?_cons]))

end

/-! ## The kept index -/

theorem walkChainFromAnchor_take {anchor : IggyIndex}
    (h : walkChainFromAnchor xxh3 partitionId log startOffset anchor = .ok a)
    (hstarted : a.startTimestamp ≠ none) :
    a.position ≤ log.length ∧
      walkChainFromAnchor xxh3 partitionId (log.take a.position) startOffset anchor = .ok a := by
  obtain ⟨headers, hchain, rfl⟩ := Walker.exists_chain h
  have hend : (headers.foldl (AnchoredWalk.walker startOffset).accept (.start anchor)).position =
      anchor.position + chainSize headers :=
    (AnchoredWalk.walker startOffset).position_foldl headers (.start anchor)
  have hinside : anchor.position ≤ log.length := by
    cases headers with
    | nil => exact absurd rfl hstarted
    | cons header rest =>
      have hle : anchor.position + header.batchLength ≤ log.length :=
        (provenBatchAt_eq_some.mp hchain.1).2.1
      omega
  have hle : anchor.position + chainSize headers ≤ log.length := hchain.end_le hinside
  have hlength := hchain.length_le_chainSize
  rw [hend]
  refine ⟨hle, Walker.walk_chain (hchain.take hle (le_rfl)) ?_ ?_⟩ <;>
    rw [length_take, min_eq_left hle]
  · rfl
  · omega

namespace Accepted

variable {first last : IggyIndex} {a : AnchoredWalk} {again : SegmentFiles}

theorem rebuiltIndex_eq
    (h : Accepted xxh3 partitionId files startOffset durableSegments b first last a) :
    b.rebuiltIndex = none ∧ b.indexSize = (indexEntries files.index).length * iggyIndexSize := by
  rcases h.bounds with ⟨-, rfl⟩ | ⟨-, _, _, -, -, -, rfl⟩ <;> exact ⟨rfl, rfl⟩

theorem take_messagesSize (h : Accepted xxh3 partitionId files startOffset false b first last a) :
    files.log.take b.messagesSize = files.log := by
  rcases h.bounds with ⟨hdurable, -⟩ | ⟨-, full, _, -, -, hwhole, rfl⟩
  · cases hdurable
  · exact take_of_length_le hwhole.ge

theorem recover (h : Accepted xxh3 partitionId files startOffset durableSegments b first last a)
    (hlog : again.log = files.log.take b.messagesSize)
    (hindex : indexEntries again.index = indexEntries files.index)
    (hmatched : ∀ e ∈ indexEntries files.index, entryMatches partitionId again.log e = true)
    (budget : ProbeBudget) :
    recoverSegmentBounds xxh3 partitionId again startOffset durableSegments budget =
      .ok (some b, budget) := by
  have hconsistent : (indexIsConsistent partitionId again.log startOffset
      (indexEntries files.index)).structurallyConsistent = true :=
    (structurallyConsistent_congr ..).trans h.consistent
  have hmatch : (indexIsConsistent partitionId again.log startOffset
      (indexEntries files.index)).mappingsMatch = true := by
    rw [indexIsConsistent, (validateEntries_consistent hconsistent).1, Bool.true_and,
      List.all_eq_true]
    exact hmatched
  unfold recoverSegmentBounds
  rw [hindex]
  dsimp only
  rw [h.head, h.tail]
  dsimp only
  rw [if_pos hconsistent]
  rcases h.bounds with ⟨rfl, rfl⟩ | ⟨rfl, full, startTimestamp, hfull, hstart, hwhole, rfl⟩
  · obtain ⟨hle, hwalk⟩ := walkChainFromAnchor_take h.walk h.started
    have hprobe : refuseIfSurvivorPastDamage xxh3 again.log a.position (some a.endOffset) startOffset
        budget = .ok budget :=
      if_pos (by rw [hlog, length_take, min_eq_left hle])
    rw [hlog, hwalk, ok_bind, if_neg h.started, ← hlog, if_pos hmatch, acceptIndex, if_pos rfl,
      hprobe, ok_bind]
  · rw [h.take_messagesSize] at hlog
    rw [hlog, h.walk, ok_bind, if_neg h.started, ← hlog, if_pos hmatch, acceptIndex,
      if_neg Bool.false_ne_true, hlog, hfull, ok_bind, hstart]
    exact if_pos hwhole

end Accepted

/-! ## The resulting index -/

/-- What a recovered segment's index says about its log. Every entry names a batch with messages
that ends inside the log, and the first one the first such batch; a rebuilt index names batches whose
checksum holds. Offsets ascend with the positions until they reach the last `u64`, where the chain
of offsets saturates. -/
structure UsableIndex (xxh3 : Bytes → UInt64) (partitionId startOffset : Nat)
    (files : SegmentFiles) (b : WalkedBounds) : Prop where
  matched : ∀ e ∈ indexEntries files.index, ∃ header,
    peekHeader files.log e.position = some header ∧ header.partitionId = partitionId ∧
    header.baseOffset = e.offset ∧ header.baseTimestamp = e.timestamp ∧ 0 < header.messageCount ∧
    e.position + header.batchLength ≤ files.log.length
  verified : b.rebuiltIndex ≠ none → ∀ e ∈ indexEntries files.index,
    provenBatchAt xxh3 files.log e.position ≠ none
  positions : (indexEntries files.index).Pairwise fun d e => d.position < e.position
  offsets : b.endOffset < wordMax →
    (indexEntries files.index).Pairwise fun d e => d.offset < e.offset
  first : ∃ e rest before, indexEntries files.index = e :: rest ∧
    Chain xxh3 partitionId files.log 0 startOffset before ∧
    (∀ header ∈ before, header.messageCount = 0) ∧ e.position = chainSize before

/-- With `durable_segments` the log below the last entry is not read: the entries of a kept index
have to end inside the bounds found from the last one. -/
def EntriesEndInside (partitionId : Nat) (files : SegmentFiles) (bounds : Option WalkedBounds) :
    Prop :=
  ∀ b, bounds = some b → b.rebuiltIndex = none → ∀ e ∈ indexEntries files.index,
    entryMatches partitionId (files.log.take b.messagesSize) e = true

theorem bounds_walked (h : (walked startOffset headers).bounds = some b) :
    b.messagesSize = chainSize headers ∧
      b.rebuiltIndex = some (walked startOffset headers).rebuiltIndex ∧
      b.endOffset = (walked startOffset headers).endOffset ∧
      (walked startOffset headers).startTimestamp ≠ none := by
  obtain ⟨startTimestamp, hstart, rfl⟩ := map_eq_some_iff.mp h
  exact ⟨position_walked, rfl, rfl, by rw [hstart]; exact some_ne_none _⟩

theorem usableIndex_walked (hchain : Chain xxh3 partitionId files.log 0 startOffset headers)
    (hbounds : (walked startOffset headers).bounds = some b) :
    UsableIndex xxh3 partitionId startOffset (files.applyPlan (some b)) b := by
  obtain ⟨hsize, hindex, hend, hstarted⟩ := bounds_walked hbounds
  obtain ⟨entries, hrebuilt⟩ := exists_rebuilt hchain
  have hlog : (files.applyPlan (some b)).log = files.log.take (chainSize headers) :=
    congrArg files.log.take hsize
  have hentries : indexEntries (files.applyPlan (some b)).index = entries := by
    rw [← hrebuilt.indexEntries_eq hchain files.log_lt]
    exact congrArg indexEntries (by rw [SegmentFiles.applyPlan, hindex, getD_some])
  refine ⟨fun e he => ?_, fun _ e he => ?_, ?_, fun hword => ?_, ?_⟩
  · rw [hentries] at he
    rw [hlog]
    exact entryMatches_eq_true.mp (hrebuilt.matches_kept hchain he)
  · rw [hentries] at he
    obtain ⟨header, hproven, -⟩ := hrebuilt.proven hchain he
    rw [hlog, hproven]
    exact some_ne_none _
  · rw [hentries]
    exact hrebuilt.positions
  · rw [hentries]
    exact hrebuilt.offsets (hend ▸ hword)
  · cases hcons : entries with
    | nil => exact absurd (hrebuilt.empty hcons).1 hstarted
    | cons e rest =>
      obtain ⟨-, before, tail, rfl, hempty, hposition⟩ := hrebuilt.first e rest hcons
      refine ⟨e, rest, before, hentries.trans hcons, ?_, hempty, hposition.symm⟩
      rw [hlog]
      exact (hchain.take hchain.size_le (Nat.zero_add _).le).left

section

variable (h : Accepted xxh3 partitionId files startOffset durableSegments b first last a)
include h

theorem Accepted.indexEntries_applyPlan :
    indexEntries (files.applyPlan (some b)).index = indexEntries files.index := by
  obtain ⟨hrebuilt, hsize⟩ := h.rebuiltIndex_eq
  rw [← indexEntries_take files.index, ← hsize]
  exact congrArg indexEntries (by rw [SegmentFiles.applyPlan, hrebuilt, getD_none])

section

variable (hinside : durableSegments = true → EntriesEndInside partitionId files (some b))
include hinside

theorem Accepted.matched_applyPlan : ∀ e ∈ indexEntries files.index,
      entryMatches partitionId (files.log.take b.messagesSize) e = true := by
  cases durableSegments with
  | true => exact hinside rfl b rfl h.rebuiltIndex_eq.1
  | false =>
    rw [h.take_messagesSize]
    exact h.matched

theorem Accepted.usableIndex :
    UsableIndex xxh3 partitionId startOffset (files.applyPlan (some b)) b := by
  have hentries := h.indexEntries_applyPlan
  obtain ⟨-, -, hascending, hstart⟩ := validateEntries_consistent h.consistent
  obtain ⟨rest, hcons⟩ := head?_eq_some_iff.mp h.head
  refine ⟨fun e he => ?_, fun hne => absurd h.rebuiltIndex_eq.1 hne, ?_, fun _ => ?_, ?_⟩
  · rw [hentries] at he
    exact entryMatches_eq_true.mp (h.matched_applyPlan hinside e he)
  · rw [hentries]
    exact hascending.imp And.right
  · rw [hentries]
    exact hascending.imp And.left
  · exact ⟨first, rest, [], hentries.trans hcons, trivial, nofun, (hstart rfl first rest hcons).2⟩

end

end

theorem usableIndex_of_recover
    (h : recoverSegmentBounds xxh3 partitionId files startOffset durableSegments budget =
      .ok (some b, after))
    (hinside : durableSegments = true → EntriesEndInside partitionId files (some b)) :
    UsableIndex xxh3 partitionId startOffset (files.applyPlan (some b)) b := by
  rcases recover_cases h with ⟨headers, hchain, hbounds⟩ | ⟨_, first, last, a, hbounds, haccepted⟩
  · exact usableIndex_walked hchain hbounds.symm
  · cases hbounds
    exact haccepted.usableIndex hinside

/-! ## Running again -/

/-- A run over `again` finds the bounds of an earlier one, keeps the log it is given and leaves a
usable index. -/
def Recovers (xxh3 : Bytes → UInt64) (partitionId : Nat) (again : SegmentFiles)
    (startOffset : Nat) (durableSegments : Bool) (budget : ProbeBudget)
    (bounds : Option WalkedBounds) : Prop :=
  ∃ bounds', recoverSegmentBounds xxh3 partitionId again startOffset durableSegments budget =
      .ok (bounds', budget) ∧
    Option.Rel WalkedBounds.Same bounds bounds' ∧ (again.applyPlan bounds').log = again.log ∧
    ∀ b, bounds' = some b →
      UsableIndex xxh3 partitionId startOffset (again.applyPlan bounds') b

theorem recovers_of_same {again : SegmentFiles} {bounds' : Option WalkedBounds}
    (hlog : again.log = (files.cutPlan bounds).log)
    (h : recoverSegmentBounds xxh3 partitionId again startOffset durableSegments budget =
      .ok (bounds', budget)) (hsame : Option.Rel WalkedBounds.Same bounds bounds') :
    Recovers xxh3 partitionId again startOffset durableSegments budget bounds := by
  have hwhole : (again.applyPlan bounds').log = again.log := by
    cases hsame with
    | none => exact hlog.symm
    | some hsame =>
      refine take_of_length_le ?_
      rw [hlog, hsame.messagesSize]
      exact length_take_le ..
  refine ⟨bounds', h, hsame, hwhole, fun b hb => ?_⟩
  subst hb
  refine usableIndex_of_recover h fun _ own hown hnone e he => ?_
  cases hown
  rcases recover_cases h with ⟨headers, -, hwalked⟩ | ⟨_, first, last, a, -, haccepted⟩
  · rw [(bounds_walked hwalked.symm).2.1] at hnone
    cases hnone
  · exact (congrArg (entryMatches partitionId · e) hwhole).trans (haccepted.matched e he)

/-- The last entry led to no refusal over the whole log, so it leads to none now. -/
theorem recovers_cutPlan_walked
    (hrun : recoverSegmentBounds xxh3 partitionId files startOffset false budget =
      .ok (some b, after))
    (hchain : Chain xxh3 partitionId files.log 0 startOffset headers)
    (hbounds : (walked startOffset headers).bounds = some b) (budget' : ProbeBudget) :
    Recovers xxh3 partitionId (files.cutPlan (some b)) startOffset false budget' (some b) := by
  have hlog : (files.cutPlan (some b)).log = files.log.take (chainSize headers) :=
    congrArg files.log.take (bounds_walked hbounds).1
  obtain ⟨bounds', hagain, hsame⟩ := recover_kept hchain hlog
    (fun last hlast hconsistent => by
      obtain ⟨a, hwalk⟩ := exists_anchor_of_recover hrun hlast
        ((structurallyConsistent_congr ..).trans hconsistent)
      rw [hlog]
      exact Walker.exists_walk_take hwalk hchain.size_le (length_take_le' ..)) budget'
  exact recovers_of_same rfl hagain (hbounds ▸ hsame)

theorem recovers_empty {again : SegmentFiles} (hlog : again.log = [])
    (hindex : again.index = [] ∨ durableSegments = false) (budget : ProbeBudget) :
    Recovers xxh3 partitionId again startOffset durableSegments budget none := by
  obtain ⟨bounds', hagain, hsame⟩ : ∃ bounds', recoverSegmentBounds xxh3 partitionId again startOffset
      durableSegments budget = .ok (bounds', budget) ∧ Option.Rel WalkedBounds.Same none bounds' := by
    rcases hindex with hindex | rfl
    · refine ⟨none, ?_, .none⟩
      unfold recoverSegmentBounds
      rw [hindex, hlog]
      rfl
    · have hchain : Chain xxh3 partitionId [] 0 startOffset [] := trivial
      refine recover_kept hchain hlog (fun last _ _ => ?_) budget
      rw [hlog]
      exact ⟨_, rfl⟩
  have hcut : again.log = (again.cutPlan none).log := hlog
  exact recovers_of_same hcut hagain hsame

/-- The probe does not overlook a batch: it finds one, or gives up. -/
theorem probeForSurvivor_ne_noSurvivor {chainEndOffset : Option Nat} {fuel candidate target : Nat}
    (hcandidate : plausibleAt log chainEndOffset startOffset target = some header)
    (hverifies : batchVerifies xxh3 log target header.batchLength = true)
    (hle : candidate ≤ target) (hfuel : target < candidate + fuel) (budget : ProbeBudget) :
    (probeForSurvivor xxh3 log chainEndOffset startOffset fuel candidate budget).1 ≠ .noSurvivor := by
  obtain ⟨hdecode, hchecks⟩ := filter_eq_some_iff.mp hcandidate
  have hsize : headerSize ≤ header.batchLength :=
    (Header.decode_eq_ok.mp (toOption_eq_some.mp hdecode)).2.1
  have hfits := (decide_eq_true_iff.mp hchecks).2.2.1
  induction fuel generalizing candidate budget with
  | zero => omega
  | succ fuel ih =>
    unfold probeForSurvivor
    rw [if_pos (by omega)]
    dsimp only
    split
    · by_cases htarget : candidate = target
      · subst htarget
        rw [hcandidate]
        dsimp only
        rw [if_pos hverifies]
        split <;> exact nofun
      · have hnext := ih (show candidate + 1 ≤ target by omega) (by omega)
        split
        · exact hnext _
        · split
          · split
            · exact nofun
            · exact hnext _
          · exact nofun
    · exact nofun

theorem refuseIfSurvivorPastDamage_error {chainEndOffset : Option Nat} {damage target : Nat}
    (hcandidate : plausibleAt log chainEndOffset startOffset target = some header)
    (hverifies : batchVerifies xxh3 log target header.batchLength = true) (hdamage : damage < target)
    (htarget : target < log.length) (budget : ProbeBudget) :
    ∃ refusal, refuseIfSurvivorPastDamage xxh3 log damage chainEndOffset startOffset budget =
      .error refusal := by
  have hprobe := probeForSurvivor_ne_noSurvivor hcandidate hverifies (Nat.succ_le_of_lt hdamage)
    (show target < damage + 1 + log.length by omega)
    (budget.growForResidue (log.length - damage))
  unfold refuseIfSurvivorPastDamage
  rw [if_neg (by omega)]
  split
  · exact ⟨_, rfl⟩
  · exact ⟨_, rfl⟩
  · rename_i hnone
    rw [hnone] at hprobe
    exact absurd rfl hprobe

def lengthHash (bytes : Bytes) : UInt64 := .ofNat bytes.length

def oneMessage (offset timestamp : Nat) : Bytes :=
  (Header.mk 1 offset timestamp timestamp 304 52 1).encode ++ (MessageHeader.mk 40 0 0 0 0 0).encode

def damagedSegment : SegmentFiles where
  log := (Header.mk 1 0 10 10 561 0 1).encode ++ (oneMessage 1 20 ++ [0])
  index := entryBytes ⟨0, 10, 0⟩ ++ entryBytes ⟨1, 20, 256⟩
  log_lt := by decide +kernel

def damagedBounds : WalkedBounds := ⟨10, 20, 1, 560, 48, none⟩

def tornSegment : SegmentFiles where
  log := oneMessage 0 10 ++ [0]
  index := entryBytes ⟨0, 10, 0⟩
  log_lt := by decide +kernel

def tornBounds : WalkedBounds := ⟨10, 10, 0, 304, 24, none⟩

end Iggy.SegmentRecovery
