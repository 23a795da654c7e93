import Iggy.Partitions.ResidentPoll

/-!
# A poll serves a prefix of what was asked for

The persisted segments followed by the resident journal hold one history of batches, of which the
journal may hold a last part of the persisted ones once more. A poll of any kind returns a prefix of
the committed messages of that history from the requested place on (`poll_serves_prefix`): the disk
walk starts at or before the first of them, serves them in order, and goes on into the journal only
where that reaches back to the message after its last.
-/

namespace Iggy.Poll

open List Lib Batch Option Nat IggyIndexCache

variable {xxh3 : Bytes → UInt64} {query : MessageLookup} {bs : List (StoredBatch xxh3)}
  {entries : List IggyIndex} {entry : IggyIndex} {ms rest : List PolledMessage}
  {m last : PolledMessage} {start count ceiling : Nat}

/-! ## Partitions that hold a history -/

/-- An index entry that points at the start of a batch. -/
def PointsAt (entry : IggyIndex) (bs : List (StoredBatch xxh3)) : Prop :=
  ∃ pre b post, bs = pre ++ b :: post ∧
    entry = ⟨b.batch.header.baseOffset, b.batch.header.baseTimestamp, (rawsOf pre).length⟩

/-- The index entries of a segment that a poll may read. -/
def Segment.indexEntries (segment : Segment) : List IggyIndex :=
  segment.indexes.getD [] ++ segment.readIndex.getD [] ++ segment.indexFile

/-- A segment whose file holds `bs` and whose indexes point into it. -/
structure Segment.Holds (segment : Segment) (bs : List (StoredBatch xxh3)) : Prop where
  file : (PolledPartition.diskSegment segment).Holds bs
  points : ∀ entry ∈ segment.indexEntries, PointsAt entry bs
  cursor : ∀ cursor ∈ segment.offsetCursor, ∃ timestamp,
    PointsAt ⟨cursor.offset, timestamp, cursor.position⟩ bs
  stamped : ∀ b ∈ bs, b.batch.header.baseTimestamp ≤ segment.maxTimestamp

/-- The partition holds `history`: its segments hold the batches `stored`, its journal the last of
the history, from some batch on that is stored or follows the stored ones. -/
structure PolledPartition.Holds (p : PolledPartition) (stored : List (List (StoredBatch xxh3)))
    (history : List (StoredBatch xxh3)) : Prop where
  segments : List.Forall₂ Segment.Holds p.segments stored
  starts : ∀ i segment, p.segments[i]? = some segment →
    ∀ m ∈ messagesOf (stored.take i).flatten, m.offset < segment.startOffset
  ordered : history.Pairwise StoredBatch.Before
  overlap : ∃ earlier shared newer, stored.flatten = earlier ++ shared ∧
    history = earlier ++ shared ++ newer ∧ p.journal.Holds (shared ++ newer)
  commit_lt : p.commitOffset + 1 < 2 ^ 64
  consumer_lt : ∀ offset ∈ p.consumerOffset, offset + 1 < 2 ^ 64

/-! ## The order of messages -/

theorem timestamp_of_mem {batch : BatchRef} (h : m ∈ messages batch) :
    m.timestamp = batch.header.baseTimestamp := by
  obtain ⟨f, -, rfl⟩ := mem_map.mp h
  rfl

theorem base_le_of_mem {b : StoredBatch xxh3} (h : m ∈ messages b.batch) :
    b.batch.header.baseOffset ≤ m.offset := by
  obtain ⟨f, hf, rfl⟩ := mem_map.mp h
  exact b.based f hf

/-- Messages ascend in offset and do not descend in timestamp. -/
def MessageBefore (m m' : PolledMessage) : Prop :=
  m.offset < m'.offset ∧ m.timestamp ≤ m'.timestamp

theorem pairwise_messagesOf (h : bs.Pairwise StoredBatch.Before) :
    (messagesOf bs).Pairwise MessageBefore := by
  induction h with
  | nil => exact List.Pairwise.nil
  | @cons b bs hb _ ih =>
    refine pairwise_append.mpr ⟨?_, ih, fun m hm m' hm' => ?_⟩
    · refine pairwise_map.mpr (b.ascending.imp fun {f g} hlt => ?_)
      exact ⟨hlt, le_rfl⟩
    · obtain ⟨b', hb', hm'⟩ := mem_flatMap.mp hm'
      obtain ⟨hoffset, hstamp⟩ := hb b' hb'
      refine ⟨lt_of_lt_of_le (hoffset m hm) (base_le_of_mem hm'), ?_⟩
      rw [timestamp_of_mem hm, timestamp_of_mem hm']
      exact hstamp.le

theorem filter_above_last (h : (ms ++ rest).Pairwise MessageBefore)
    (hlast : ms.getLast? = some last) :
    (ms ++ rest).filter (fun m => last.offset + 1 ≤ m.offset) = rest := by
  obtain ⟨hms, -, hcross⟩ := pairwise_append.mp h
  have hmem : last ∈ ms := mem_of_getLast? hlast
  obtain ⟨pre, rfl⟩ := getLast?_eq_some_iff.mp hlast
  rw [filter_append, filter_eq_nil_iff.mpr, nil_append, filter_eq_self.mpr]
  · intro m hm
    rw [decide_eq_true_eq]
    exact (hcross last hmem m hm).1
  · intro m hm
    obtain hm | hm := mem_append.mp hm
    · have := ((pairwise_append.mp hms).2.2 m hm last (mem_singleton_self _)).1
      simp
      omega
    · obtain rfl := mem_singleton.mp hm
      simp

theorem wanted_offset : wanted (.offset start count ceiling) m =
      (decide (m.offset ≤ ceiling) && decide (start ≤ m.offset)) := rfl

theorem not_wanted_of_lt (h : m.offset < start) :
    ¬ wanted (.offset start count ceiling) m = true := by
  rw [wanted_offset, Bool.and_eq_true, decide_eq_true_eq, decide_eq_true_eq]
  omega

theorem wanted_timestamp {since : Nat} : wanted (.timestamp since count ceiling) m =
      (decide (m.offset ≤ ceiling) && decide (since ≤ m.timestamp)) := rfl

/-- **Polling on.** The messages from the one after the last served on are those not served yet,
also where the query was by timestamp. -/
theorem filter_wanted_after {all : List PolledMessage} (hall : all.Pairwise MessageBefore)
    (h : all.filter (wanted query) = ms ++ rest) (hlast : ms.getLast? = some last) :
    all.filter (wanted (.offset (last.offset + 1) count query.ceiling)) = rest := by
  have hmem : last ∈ all.filter (wanted query) :=
    h ▸ mem_append_left rest (mem_of_getLast? hlast)
  obtain ⟨hall_last, hwanted⟩ := mem_filter.mp hmem
  rw [← @filter_above_last ms rest last (h ▸ hall.filter _) hlast, ← h, List.filter_filter]
  refine filter_congr fun m hm => ?_
  by_cases habove : last.offset + 1 ≤ m.offset
  · have hstamp : last.timestamp ≤ m.timestamp := by
      obtain heq | hlt | hgt := pairwise_eq_or_rel hall hall_last hm
      · exact heq ▸ le_rfl
      · exact hlt.2
      · exact absurd hgt.1 (by omega)
    simp only [wanted, Bool.and_eq_true] at hwanted
    have hselects : query.selects m.offset m.timestamp = true := by
      cases query <;> simp only [MessageLookup.selects, decide_eq_true_eq] at hwanted ⊢ <;> omega
    rw [wanted_offset, wanted, hselects, decide_eq_true habove]
    exact (Bool.and_true _).trans ((Bool.true_and _).trans (Bool.and_true _)).symm
  · rw [wanted_offset, decide_eq_false habove, Bool.and_false, Bool.false_and]

/-! ## Where the walk starts -/

/-- A position between two batches, no message before it being wanted. -/
def Skips (query : MessageLookup) (bs : List (StoredBatch xxh3)) (position : Nat) : Prop :=
  ∃ before, before <+: bs ∧ position = (rawsOf before).length ∧
    ∀ m ∈ messagesOf before, ¬ wanted query m = true

theorem skips_zero : Skips query bs 0 :=
  ⟨[], List.nil_prefix, rfl, nofun⟩

/-- The key of an index entry is not above what the query asks for. -/
def IggyIndex.AtOrBelow (entry : IggyIndex) : MessageLookup → Prop
  | .offset start _ _ => entry.offset ≤ start
  | .timestamp since _ _ => entry.timestamp ≤ since

theorem PointsAt.skips (h : PointsAt entry bs) (hbs : bs.Pairwise StoredBatch.Before)
    (hbelow : entry.AtOrBelow query) : Skips query bs entry.position := by
  obtain ⟨pre, b, post, rfl, rfl⟩ := h
  refine ⟨pre, prefix_append _ _, rfl, fun m hm => ?_⟩
  obtain ⟨b', hb', hm⟩ := mem_flatMap.mp hm
  obtain ⟨hoffset, hstamp⟩ := (pairwise_append.mp hbs).2.2 b' hb' b mem_cons_self
  have hlt := hoffset m hm
  rw [wanted, timestamp_of_mem hm]
  cases query <;> simp only [IggyIndex.AtOrBelow] at hbelow <;>
    simp only [MessageLookup.selects, Bool.and_eq_true, decide_eq_true_eq] <;> omega

theorem IggyIndexCache.lowerBound_spec {key : IggyIndex → Nat} {target : Nat}
    (h : lowerBound entries key target = some entry) : entry ∈ entries ∧ key entry ≤ target := by
  have hbase := @key_searchBase_le _ entries key target entries.length entries.length 0
    (absurd rfl)
  unfold lowerBound binarySearchByKey at h
  generalize searchBase entries key target entries.length entries.length 0 = base at h hbase
  cases hget : entries[base]? with
  | none => simp [hget] at h
  | some last =>
    simp only [hget] at h
    split at h
    · rename_i i hfound
      split_ifs at hfound with heq
      cases hfound
      cases hget.symm.trans h
      exact ⟨mem_of_getElem? hget, heq.le⟩
    · cases h
    · -- the entry before the one where the key would go
      rename_i i hfound
      split_ifs at hfound with heq hless
      all_goals
        cases hfound
      · cases hget.symm.trans h
        exact ⟨mem_of_getElem? hget, hless.le⟩
      · have := hbase (by omega) last hget
        omega

theorem indexLowerBound_spec (h : indexLowerBound entries query = some entry) :
    entry ∈ entries ∧ entry.AtOrBelow query := by
  cases query <;> exact lowerBound_spec h

theorem lowerBoundBy_spec {key : IggyIndex → Nat} {target fuel low high : Nat}
    {result : Option IggyIndex} (hresult : ∀ found ∈ result, found ∈ entries ∧ key found ≤ target)
    (h : lowerBoundBy entries key target fuel low high result = some entry) :
    entry ∈ entries ∧ key entry ≤ target := by
  induction fuel generalizing low high result with
  | zero => exact hresult entry h
  | succ fuel ih =>
    rw [lowerBoundBy] at h
    split at h
    case isFalse => exact hresult entry h
    case isTrue =>
      dsimp only at h
      split at h
      case h_1 => exact hresult entry h
      case h_2 found hfound =>
        split at h
        case isFalse => exact ih hresult h
        case isTrue hle =>
          refine ih (fun x hx => ?_) h
          cases hx
          exact ⟨mem_of_getElem? hfound, hle⟩

theorem lowerBoundOnFile_spec (h : lowerBoundOnFile entries query = some entry) :
    entry ∈ entries ∧ entry.AtOrBelow query := by
  cases query <;> exact lowerBoundBy_spec (by simp) h

section Start

variable {segment : Segment} {faults : DiskFaults} (h : segment.Holds bs)
  (hbs : bs.Pairwise StoredBatch.Before)

include h hbs

theorem Segment.Holds.skips_of_mem (hentries : entries ⊆ segment.indexEntries)
    (h' : entry ∈ entries ∧ entry.AtOrBelow query) : Skips query bs entry.position :=
  (h.points entry (hentries h'.1)).skips hbs h'.2

theorem Segment.Holds.skips_indexes :
    Skips query bs
      (((segment.indexes.bind fun cache => indexLowerBound cache query).map
        IggyIndex.position).getD 0) := by
  cases hindexes : segment.indexes with
  | none => exact skips_zero
  | some cache =>
    rw [bind_some]
    cases hentry : indexLowerBound cache query with
    | none => exact skips_zero
    | some entry =>
      refine h.skips_of_mem hbs ?_ (indexLowerBound_spec hentry)
      simp [Segment.indexEntries, hindexes]

theorem Segment.Holds.skips_sealed {maxBytes : Nat} {resolved : Nat × Nat}
    (hresolved : resolveSealedStart faults (PolledPartition.diskSegment segment) query maxBytes =
      some resolved) : Skips query bs resolved.1 := by
  unfold resolveSealedStart at hresolved
  split at hresolved
  case isTrue => exact nomatch hresolved
  split at hresolved
  case h_1 index hindex =>
    obtain ⟨entry, hentry, rfl⟩ := map_eq_some_iff.mp hresolved
    have hread : segment.readIndex = some index := hindex
    exact h.skips_of_mem hbs (by simp [Segment.indexEntries, hread]) (indexLowerBound_spec hentry)
  split at hresolved
  case h_1 cursor hcursor =>
    cases hresolved
    cases query with
    | timestamp since _ _ => exact nomatch hcursor
    | offset start _ _ =>
      obtain ⟨hsome, hrange⟩ := filter_eq_some_iff.mp hcursor
      obtain ⟨timestamp, hpoints⟩ := h.cursor cursor hsome
      exact hpoints.skips hbs (of_decide_eq_true hrange).1
  split at hresolved
  case isTrue => exact nomatch hresolved
  dsimp only at hresolved
  split at hresolved
  all_goals obtain ⟨entry, hentry, rfl⟩ := map_eq_some_iff.mp hresolved
  case isTrue =>
    exact h.skips_of_mem hbs (subset_append_right ..) (indexLowerBound_spec hentry)
  case isFalse =>
    exact h.skips_of_mem hbs (subset_append_right ..) (lowerBoundOnFile_spec hentry)

end Start

theorem forall₂_getElem? {α β : Type} {R : α → β → Prop} {l : List α} {l' : List β}
    (h : List.Forall₂ R l l') {i : Nat} {b : β} (hb : l'[i]? = some b) :
    ∃ a, l[i]? = some a ∧ R a b := by
  obtain ⟨hi, rfl⟩ := List.getElem?_eq_some_iff.mp hb
  obtain ⟨hlen, hrel⟩ := forall₂_iff_get.mp h
  exact ⟨_, getElem?_eq_getElem (hlen ▸ hi), hrel i _ hi⟩

namespace PolledPartition

variable {p : PolledPartition} {stored : List (List (StoredBatch xxh3))}
  {history : List (StoredBatch xxh3)} {query : MessageLookup} {faults : DiskFaults}
  {capacity : Nat → Nat} {limits : PollLimits} {validateChecksum : Bool}

theorem diskPollStart_position : (p.diskPollStart query).2.1 =
    ((p.segments[(p.diskPollStart query).1]?.bind fun segment =>
      segment.indexes.bind fun cache => indexLowerBound cache query).map
        IggyIndex.position).getD 0 := by
  cases query <;> rfl

section

variable (h : p.Holds stored history)
include h

/-- **The segments before the first one walked** hold nothing wanted. -/
theorem Holds.not_wanted_earlier :
    ∀ m ∈ messagesOf (stored.take (p.diskPollStart query).1).flatten, ¬ wanted query m = true := by
  cases query with
  | offset start count ceiling =>
    intro m hm
    refine not_wanted_of_lt ?_
    simp only [diskPollStart] at hm
    generalize hfound : p.segments.reverse.findIdx (fun segment => segment.startOffset ≤ start) = r
      at hm
    by_cases hr : r < p.segments.reverse.length
    · -- the last segment that starts at or below the offset
      subst hfound
      have hbelow := findIdx_getElem (w := hr)
      rw [getElem_reverse, decide_eq_true_eq] at hbelow
      rw [length_reverse] at hr
      have hlt := h.starts _ _ (getElem?_eq_getElem (by omega)) m hm
      omega
    · rw [length_reverse] at hr
      rw [show p.segments.length - 1 - r = 0 by omega] at hm
      exact nomatch hm
  | timestamp since count ceiling =>
    intro m hm
    simp only [diskPollStart] at hm
    obtain ⟨b, hb, hm⟩ := mem_flatMap.mp hm
    obtain ⟨bs, hbs, hb⟩ := mem_flatten.mp hb
    obtain ⟨j, hj⟩ := mem_iff_getElem?.mp hbs
    rw [getElem?_take] at hj
    split_ifs at hj with hlt
    obtain ⟨segment, hsegment, hholds⟩ := forall₂_getElem? h.segments hj
    obtain ⟨hj', rfl⟩ := List.getElem?_eq_some_iff.mp hsegment
    have hbefore := not_of_lt_findIdx (hlt.trans_le (min_le_left _ _))
    rw [decide_eq_false_iff_not] at hbefore
    have hstamp := hholds.stamped b hb
    simp only [wanted, MessageLookup.selects, Bool.and_eq_true, decide_eq_true_eq,
      timestamp_of_mem hm]
    omega

theorem Holds.ordered_stored (hbs : bs ∈ stored) : bs.Pairwise StoredBatch.Before := by
  obtain ⟨earlier, shared, newer, hstored, hhistory, -⟩ := h.overlap
  refine h.ordered.sublist (List.Sublist.trans (sublist_flatten_of_mem hbs) ?_)
  rw [hstored, hhistory]
  exact sublist_append_left _ _

/-- **Where the walk starts**: nothing wanted lies before it in its segment either. -/
theorem Holds.skips_start {maxBytes : Nat} :
    Skips query ((stored.drop (p.diskPollStart query).1).headD [])
      (((((p.segments.drop (p.diskPollStart query).1).map diskSegment).head?.bind fun first =>
        resolveSealedStart faults first query maxBytes).map Prod.fst).getD
          (p.diskPollStart query).2.1) := by
  rw [diskPollStart_position]
  generalize (p.diskPollStart query).1 = i
  rw [head?_map, head?_drop, headD_eq_head?_getD, head?_drop]
  cases hbs : stored[i]? with
  | none =>
    have hnone : p.segments[i]? = none := by
      rw [List.getElem?_eq_none_iff] at hbs ⊢
      rwa [h.segments.length_eq]
    rw [hnone]
    exact skips_zero
  | some bs =>
    obtain ⟨segment, hsegment, hholds⟩ := forall₂_getElem? h.segments hbs
    have hordered := h.ordered_stored (mem_of_getElem? hbs)
    rw [hsegment, map_some, bind_some, bind_some, getD_some]
    cases hresolved : resolveSealedStart faults (diskSegment segment) query maxBytes with
    | none => exact hholds.skips_indexes hordered
    | some resolved => exact hholds.skips_sealed hordered hresolved

/-! ## The disk tier -/

def DirFault (p : PolledPartition) : Prop :=
  p.partitionDir = .unresolvable ∨
    p.partitionDir = .noFiles ∧ ∃ segment ∈ p.segments, 0 < segment.size

def DiskServes (p : PolledPartition) (stored : List (List (StoredBatch xxh3)))
    (faults : DiskFaults) (query : MessageLookup) : DiskReadOutcome → Prop
  | .matched selection faulted limited => ∃ through todo, stored.flatten = through ++ todo ∧
      selection.Serves xxh3 (served query [] through) ∧ 0 < selection.matched ∧
      (faulted = false → limited = false → todo = [] ∨ query.count ≤ selection.matched)
  | .empty => ∀ m ∈ messagesOf stored.flatten, ¬ wanted query m = true
  | .faulted _ => p.DirFault ∨ ∃ through,
      FaultAt faults (p.segments.map diskSegment) stored through ∧
      ∀ m ∈ messagesOf through, ¬ wanted query m = true

theorem Holds.disk_segments (i : Nat) :
    List.Forall₂ DiskSegment.Holds ((p.segments.drop i).map diskSegment) (stored.drop i) :=
  forall₂_map_left_iff.mpr ((forall₂_drop i h.segments).imp fun _ _ hseg => hseg.file)

end

theorem flatten_eq_nil_of_persisted {segments : List DiskSegment}
    (h : List.Forall₂ DiskSegment.Holds segments stored)
    (hzero : ∀ segment ∈ segments, segment.persisted = 0) : stored.flatten = [] := by
  induction h with
  | nil => rfl
  | @cons segment bs segments stored hseg _ ih =>
    have hbs : bs = [] := by
      have hsum := @DiskSegment.Holds.length_rawsOf _ _ [] bs hseg
      have hlen := @length_le_length_rawsOf _ bs
      rw [hzero segment mem_cons_self] at hsum
      exact length_eq_zero_iff.mp (by omega)
    rw [flatten_cons, hbs, ih fun s hs => hzero s (mem_cons_of_mem _ hs)]
    rfl

theorem faultAt_of_drop {segments : List Segment} {through : List (StoredBatch xxh3)} {i : Nat}
    (hlen : segments.length = stored.length)
    (h : FaultAt faults ((segments.drop i).map diskSegment) (stored.drop i) through) :
    FaultAt faults (segments.map diskSegment) stored ((stored.take i).flatten ++ through) := by
  obtain ⟨segs, segment, segs', earlier, before, todo, later, hsegs, hstored, hlength, rfl, hfault⟩ :=
    h
  refine ⟨(segments.take i).map diskSegment ++ segs, segment, segs', stored.take i ++ earlier,
    before, todo, later, ?_, ?_, ?_, ?_, hfault⟩
  · rw [append_assoc, ← hsegs, ← map_append, take_append_drop]
  · rw [append_assoc, ← hstored, take_append_drop]
  · simp only [length_append, length_map, length_take, hlen, hlength]
  · rw [flatten_append, append_assoc]

theorem diskReadPlan_segments : (p.diskReadPlan query validateChecksum).segments =
      (p.segments.drop (p.diskPollStart query).1).map diskSegment := rfl

/-- **The disk tier** serves what is wanted of the batches up to where it stops. -/
theorem Holds.readDisk_serves (h : p.Holds stored history) (hcount : query.count ≠ 0) :
    p.DiskServes stored faults query
      ((p.diskReadPlan query validateChecksum).readDiskWithLimit xxh3 capacity faults limits
        query) := by
  have hearlier := @h.not_wanted_earlier _ _ _ _ query
  have hskips := @Holds.skips_start _ _ _ _ query faults h limits.maxBytes
  unfold DiskReadPlan.readDiskWithLimit
  rw [diskReadPlan_segments,
    show (p.diskReadPlan query validateChecksum).partitionDir = p.partitionDir from rfl,
    show (p.diskReadPlan query validateChecksum).startPosition = (p.diskPollStart query).2.1 from rfl]
  generalize (p.diskPollStart query).1 = i at hearlier hskips ⊢
  have hdisk := h.disk_segments i
  have hsplit := take_append_drop i stored
  -- where no later segment has a batch, nothing is wanted on disk
  have hnone : (stored.drop i).flatten = [] →
      ∀ m ∈ messagesOf stored.flatten, ¬ wanted query m = true := by
    intro hnil
    rw [← hsplit, flatten_append, hnil, append_nil]
    exact hearlier
  by_cases hempty : query.count = 0 ∨ ((p.segments.drop i).map diskSegment).isEmpty = true
  · rw [if_pos hempty]
    refine hnone ?_
    rw [List.isEmpty_iff.mp (hempty.resolve_left hcount)] at hdisk
    rw [forall₂_nil_left_iff.mp hdisk, flatten_nil]
  rw [if_neg hempty]
  cases hdir : p.partitionDir with
  | unresolvable => exact .inl (.inl hdir)
  | noFiles =>
    dsimp only
    by_cases hany : ((p.segments.drop i).map diskSegment).any
        (fun segment => 0 < segment.persisted) = true
    · rw [if_pos hany]
      obtain ⟨disk, hmem, hpos⟩ := any_eq_true.mp hany
      obtain ⟨segment, hsegment, rfl⟩ := mem_map.mp hmem
      exact .inl (.inr ⟨hdir, segment, mem_of_mem_drop hsegment, of_decide_eq_true hpos⟩)
    · rw [if_neg hany]
      refine hnone (flatten_eq_nil_of_persisted hdisk fun segment hsegment => ?_)
      by_contra hpos
      exact hany (any_eq_true.mpr ⟨segment, hsegment, decide_eq_true (pos_of_ne_zero hpos)⟩)
  | resolved =>
    dsimp only
    obtain ⟨before, hbefore, hposition, hskipped⟩ := hskips
    rw [hposition]
    obtain ⟨done, todo, walk', fault, hflatten, hrun, hserves, hstop⟩ :=
      @walkSegments_serves xxh3 query faults limits (p.diskReadPlan query validateChecksum) capacity
        _ _ before [] { position := (rawsOf before).length, skipped := _ } hdisk hbefore rfl serves_nil
    rw [hrun]
    dsimp only
    -- everything read, with what was skipped
    have hthrough : stored.flatten = (stored.take i).flatten ++ (before ++ done) ++ todo := by
      rw [← hsplit, flatten_append, hflatten, hsplit]
      simp only [append_assoc]
    have hskip : ∀ m ∈ messagesOf ((stored.take i).flatten ++ before),
        ¬ wanted query m = true := by
      intro m hm
      rw [messagesOf_append, mem_append] at hm
      exact hm.elim (hearlier m) (hskipped m)
    have hserved : served query [] ((stored.take i).flatten ++ (before ++ done)) =
        served query [] done := by
      rw [← append_assoc, served_append_left hskip]
    by_cases hmatched : 0 < walk'.selection.matched
    · rw [if_pos hmatched]
      refine ⟨_, todo, hthrough, hserved ▸ hserves, hmatched, fun hfault hlimited => ?_⟩
      cases fault with
      | some fault => exact nomatch hfault
      | none =>
        obtain ⟨hlimit, -⟩ | ⟨-, hstop⟩ := hstop
        · rw [hlimit] at hlimited
          exact nomatch hlimited
        · exact hstop
    · rw [if_neg hmatched]
      have hnil : served query [] done = [] :=
        length_eq_zero_iff.mp (by rw [← hserves.matched]; omega)
      have hdone : ∀ m ∈ messagesOf ((stored.take i).flatten ++ (before ++ done)),
          ¬ wanted query m = true := by
        rw [← filter_eq_nil_iff]
        rw [← hserved, served, nil_append, length_nil, Nat.sub_zero, take_eq_nil_iff] at hnil
        exact hnil.resolve_left hcount
      cases fault with
      | some fault => exact .inr ⟨_, faultAt_of_drop h.segments.length_eq hstop.2, hdone⟩
      | none =>
        obtain ⟨-, hpos⟩ | ⟨-, rfl | hfull⟩ := hstop
        · exact absurd hpos hmatched
        · rw [append_nil] at hthrough
          rw [← hthrough] at hdone
          exact hdone
        · omega

/-! ## The whole poll -/

/-- Something that is read before `m` cannot be read. -/
def FaultBefore (p : PolledPartition) (stored : List (List (StoredBatch xxh3)))
    (faults : DiskFaults) (m : PolledMessage) : Prop :=
  p.DirFault ∨ ∃ through, FaultAt faults (p.segments.map diskSegment) stored through ∧
    ∀ x ∈ messagesOf through, x.offset < m.offset

/-- Why a result holds less than it could: it says so, or nothing matched before a read failed, or
it ends at the last persisted message, the journal starting behind a gap. -/
def ShortResult (stored : List (List (StoredBatch xxh3))) (available returned : List PolledMessage)
    (result : PollReadResult) : Prop :=
  result.truncated = true ∨ (result.readError.isSome = true ∧ returned = []) ∨
    ∃ last next, returned.getLast? = some last ∧ available[returned.length]? = some next ∧
      last.offset + 1 < next.offset ∧
      ∀ m ∈ available, m ∈ messagesOf stored.flatten → m ∈ returned

structure Answers (p : PolledPartition) (stored : List (List (StoredBatch xxh3)))
    (history : List (StoredBatch xxh3)) (faults : DiskFaults) (query : MessageLookup)
    (result : PollReadResult) (returned : List PolledMessage) : Prop where
  serves : result.selection.Serves xxh3 returned
  isPrefix : returned <+: (messagesOf history).filter (wanted query)
  length_le : returned.length ≤ query.count
  nonempty : ∀ m ∈ ((messagesOf history).filter (wanted query)).head?,
    ¬ p.FaultBefore stored faults m → returned ≠ []
  short : returned.length < query.count →
    returned.length < ((messagesOf history).filter (wanted query)).length →
    ShortResult stored ((messagesOf history).filter (wanted query)) returned result

variable {result : PollReadResult}

theorem answers_of_all (hcount : query.count ≠ 0)
    (hserves : result.selection.Serves xxh3
      (((messagesOf history).filter (wanted query)).take query.count)) :
    p.Answers stored history faults query result
      (((messagesOf history).filter (wanted query)).take query.count) where
  serves := hserves
  isPrefix := List.take_prefix _ _
  length_le := by
    rw [length_take]
    exact min_le_left _ _
  nonempty m hm _ hnil := by
    rw [take_eq_nil_iff] at hnil
    rw [hnil.resolve_left hcount] at hm
    exact nomatch hm
  short hlt hlt' := by
    rw [length_take] at hlt hlt'
    omega

theorem served_nil_left :
    served query [] bs = ((messagesOf bs).filter (wanted query)).take query.count := by
  rw [served, nil_append, length_nil, Nat.sub_zero]

theorem served_eq_take {earlier : List (StoredBatch xxh3)} (hhistory : history = earlier ++ bs)
    (hearlier : ∀ m ∈ messagesOf earlier, ¬ wanted query m = true) :
    served query [] bs = ((messagesOf history).filter (wanted query)).take query.count := by
  rw [← served_nil_left, hhistory, served_append_left hearlier]

theorem lt_of_oldest_le {earlier shared newer : List (StoredBatch xxh3)} {n : Nat}
    (hordered : history.Pairwise StoredBatch.Before)
    (hhistory : history = earlier ++ shared ++ newer) (hjournal : p.journal.Holds (shared ++ newer))
    (h : p.journal.oldestResidentOffset.any (fun oldest => oldest ≤ n) = true) :
    ∀ m ∈ messagesOf earlier, m.offset < n := by
  rw [hjournal.oldestResidentOffset_eq] at h
  cases hhead : (shared ++ newer).head? with
  | none =>
    rw [hhead] at h
    exact nomatch h
  | some first =>
    rw [hhead, map_some, any_some, decide_eq_true_eq] at h
    intro m hm
    obtain ⟨b, hb, hm⟩ := mem_flatMap.mp hm
    rw [hhistory, append_assoc] at hordered
    have hbefore := (pairwise_append.mp hordered).2.2 b hb first (mem_of_head? hhead)
    exact lt_of_lt_of_le (hbefore.1 m hm) h

theorem serves_getD {selection : Option Selection}
    (h : (∃ acc, selection = some acc ∧ acc.Serves xxh3 ms) ∨ selection = none ∧ ms = []) :
    (selection.getD {}).Serves xxh3 ms := by
  obtain ⟨acc, rfl, hserves⟩ | ⟨rfl, rfl⟩ := h
  · exact hserves
  · exact serves_nil

/-- **The resident tier.** -/
theorem Holds.resident_answers (h : p.Holds stored history) (hcount : query.count ≠ 0)
    (hfirst : p.serveJournalFirst query = true) :
    ∃ returned, p.Answers stored history faults query
      { selection := (p.journal.getSync xxh3 query).getD {}, truncated := false, readError := none }
      returned := by
  obtain ⟨earlier, shared, newer, hstored, hhistory, hjournal⟩ := h.overlap
  have hearlier : ∀ m ∈ messagesOf earlier, ¬ wanted query m = true := by
    cases query with
    | offset start count ceiling =>
      exact fun m hm => not_wanted_of_lt (lt_of_oldest_le h.ordered hhistory hjournal hfirst m hm)
    | timestamp since count ceiling =>
      -- no segment has a byte, so nothing is persisted
      have hnil : stored.flatten = [] := by
        refine flatten_eq_nil_of_persisted (h.disk_segments 0) fun disk hdisk => ?_
        obtain ⟨segment, hsegment, rfl⟩ := mem_map.mp hdisk
        simp only [serveJournalFirst, Bool.not_eq_true', List.any_eq_false, decide_eq_true_eq,
          not_lt, le_zero] at hfirst
        exact hfirst segment hsegment
      rw [hstored] at hnil
      rw [(append_eq_nil_iff.mp hnil).1]
      exact nofun
  rw [append_assoc] at hhistory
  have hall := served_eq_take hhistory hearlier
  exact ⟨_, answers_of_all hcount
    (hall ▸ serves_getD (getSync_serves hjournal.carry hjournal.indexed))⟩

theorem serves_append {acc acc' : Selection} {ms' : List PolledMessage} (h : acc.Serves xxh3 ms)
    (h' : acc'.Serves xxh3 ms') : Selection.Serves xxh3
      { fragments := acc.fragments ++ acc'.fragments
        lastMatchingOffset := acc'.lastMatchingOffset.or acc.lastMatchingOffset
        matched := acc.matched + acc'.matched } (ms ++ ms') := by
  obtain ⟨parts, hparts, hbytes, hms⟩ := h.encoded
  obtain ⟨parts', hparts', hbytes', hms'⟩ := h'.encoded
  refine ⟨⟨parts ++ parts', forall_mem_append.mpr ⟨hparts, hparts'⟩, ?_, ?_⟩, ?_, ?_⟩
  · simp only [flatMap_append, hbytes, hbytes']
  · rw [flatMap_append, hms, hms']
  · simp only [h.last, h'.last, getLast?_append, map_or]
  · simp only [h.matched, h'.matched, length_append]

theorem Holds.fault_before (h : p.Holds stored history) {through : List (StoredBatch xxh3)}
    (hfault : FaultAt faults (p.segments.map diskSegment) stored through)
    (hthrough : ∀ m ∈ messagesOf through, ¬ wanted query m = true)
    (hm : m ∈ (messagesOf history).filter (wanted query)) : p.FaultBefore stored faults m := by
  refine .inr ⟨through, hfault, fun x hx => ?_⟩
  obtain ⟨rest, hrest⟩ : ∃ rest, history = through ++ rest := by
    obtain ⟨_, _, _, earlier, before, todo, later, -, rfl, -, rfl, -⟩ := hfault
    obtain ⟨_, _, newer, hstored, hhistory, -⟩ := h.overlap
    refine ⟨todo ++ later.flatten ++ newer, ?_⟩
    rw [hhistory, ← hstored]
    simp only [flatten_append, flatten_cons, append_assoc]
  have hordered := pairwise_messagesOf h.ordered
  obtain ⟨hm, hwanted⟩ := mem_filter.mp hm
  rw [hrest, messagesOf_append] at hordered hm
  obtain hm | hm := mem_append.mp hm
  · exact absurd hwanted (hthrough m hm)
  · exact ((pairwise_append.mp hordered).2.2 x hx m hm).1

theorem oldest_le {tail : List (StoredBatch xxh3)} (h : p.journal.Holds tail)
    (hm : m ∈ messagesOf tail) :
    ∃ oldest, p.journal.oldestResidentOffset = some oldest ∧ oldest ≤ m.offset := by
  rw [h.oldestResidentOffset_eq]
  cases tail with
  | nil => exact nomatch hm
  | cons first tail =>
    refine ⟨_, rfl, ?_⟩
    obtain ⟨b, hb, hmb⟩ := mem_flatMap.mp hm
    obtain rfl | hb := mem_cons.mp hb
    · exact base_le_of_mem hmb
    · have hbefore := (pairwise_cons.mp h.ordered).1 b hb
      have hlt := hbefore.notAfter.base_lt (h.carry.messageCount_ne_zero first mem_cons_self)
      exact (hlt.le).trans (base_le_of_mem hmb)

/-- A match on disk is a prefix `ms` of what is wanted. Unless it broke off or used up the count, it
holds all that is persisted of it, and what is left lies in the journal. -/
structure DiskPrefix (p : PolledPartition) (stored : List (List (StoredBatch xxh3)))
    (history : List (StoredBatch xxh3)) (query : MessageLookup) (selection : Selection)
    (broken : Bool) (ms rest : List PolledMessage) (last : PolledMessage) : Prop where
  serves : selection.Serves xxh3 ms
  split : (messagesOf history).filter (wanted query) = ms ++ rest
  length_le : ms.length ≤ query.count
  getLast : ms.getLast? = some last
  last_le : last.offset ≤ query.ceiling
  whole : broken = false → ms.length < query.count →
    (∀ m ∈ (messagesOf history).filter (wanted query), m ∈ messagesOf stored.flatten → m ∈ ms) ∧
      ∀ m ∈ rest, ∃ oldest, p.journal.oldestResidentOffset = some oldest ∧ oldest ≤ m.offset

theorem Holds.diskPrefix (h : p.Holds stored history) {selection : Selection}
    {faulted limited : Bool}
    (hdisk : p.DiskServes stored faults query (.matched selection faulted limited)) :
    ∃ ms rest last, p.DiskPrefix stored history query selection (limited || faulted) ms rest last := by
  obtain ⟨through, todo, hsplit, hserves, hmatched, hstop⟩ := hdisk
  obtain ⟨earlier, shared, newer, hstored, hhistory, hjournal⟩ := h.overlap
  rw [served_nil_left] at hserves
  have hall : (messagesOf history).filter (wanted query) =
      (messagesOf through).filter (wanted query) ++
        (messagesOf (todo ++ newer)).filter (wanted query) := by
    rw [← filter_append, ← messagesOf_append, hhistory, ← hstored, hsplit, append_assoc]
  generalize hms : ((messagesOf through).filter (wanted query)).take query.count = ms at hserves
  obtain ⟨rest, hrest⟩ : ms <+: (messagesOf history).filter (wanted query) := by
    rw [hall, ← hms]
    exact (List.take_prefix _ _).trans (prefix_append _ _)
  have hlength : ms.length ≤ query.count := by
    rw [← hms, length_take]
    exact min_le_left _ _
  have hne : ms ≠ [] := by
    rintro rfl
    rw [hserves.matched] at hmatched
    exact absurd hmatched (lt_irrefl _)
  obtain ⟨last, hlast⟩ : ∃ last, ms.getLast? = some last :=
    ne_none_iff_exists'.mp (mt getLast?_eq_none_iff.mp hne)
  refine ⟨ms, rest, last, hserves, hrest.symm, hlength, hlast, ?_, fun hbroken hlt => ?_⟩
  · have hmem : last ∈ (messagesOf history).filter (wanted query) :=
      hrest ▸ mem_append_left _ (mem_of_getLast? hlast)
    have hwanted := (mem_filter.mp hmem).2
    rw [wanted, Bool.and_eq_true, decide_eq_true_eq] at hwanted
    exact hwanted.1
  · obtain ⟨hlimited, hfaulted⟩ := Bool.or_eq_false_iff.mp hbroken
    -- every persisted batch was read
    obtain rfl : todo = [] := by
      refine (hstop hfaulted hlimited).resolve_right fun hfull => ?_
      rw [hserves.matched] at hfull
      omega
    rw [append_nil] at hsplit
    rw [nil_append] at hall
    have hwhole : (messagesOf through).filter (wanted query) = ms := by
      rw [← hms]
      refine (take_of_length_le ?_).symm
      by_contra hlong
      rw [← hms, length_take] at hlt
      omega
    rw [hwhole, ← hrest] at hall
    refine ⟨fun m hm hpersisted => ?_, fun m hm => ?_⟩
    · rw [hsplit] at hpersisted
      rw [← hwhole]
      exact mem_filter.mpr ⟨hpersisted, (mem_filter.mp hm).2⟩
    · rw [append_cancel_left hall] at hm
      refine oldest_le hjournal ?_
      rw [messagesOf_append]
      exact mem_append_right _ (mem_filter.mp hm).1

theorem Holds.continuation_serves (h : p.Holds stored history) {ms rest : List PolledMessage}
    {last : PolledMessage} {remaining : Nat}
    (hsplit : (messagesOf history).filter (wanted query) = ms ++ rest)
    (hlast : ms.getLast? = some last) (hremaining : 0 < remaining)
    (hreach : p.residentTailSnapshot.oldestResident.any
      (fun oldest => oldest ≤ last.offset + 1) = true) :
    let found := selectResident xxh3 p.residentTailSnapshot.entries
      (.offset (last.offset + 1) remaining query.ceiling)
    (∃ acc, found = some acc ∧ acc.Serves xxh3 (rest.take remaining)) ∨
      found = none ∧ rest.take remaining = [] := by
  obtain ⟨earlier, shared, newer, hstored, hhistory, hjournal⟩ := h.overlap
  obtain ⟨entries, hcarry, hentries⟩ := residentMessageEntries_eq hjournal.carry hjournal.indexed
  have hafter := @filter_wanted_after query _ _ _ remaining _ (pairwise_messagesOf h.ordered)
    hsplit hlast
  have hearlier : ∀ m ∈ messagesOf earlier,
      ¬ wanted (.offset (last.offset + 1) remaining query.ceiling) m = true :=
    fun m hm => not_wanted_of_lt (lt_of_oldest_le h.ordered hhistory hjournal hreach m hm)
  have hserved := served_eq_take (hhistory.trans (append_assoc _ _ _)) hearlier
  rw [hafter] at hserved
  rw [show p.residentTailSnapshot.entries = entries.map Prod.snd from hentries]
  exact hserved ▸ @selectResident_serves _ (.offset (last.offset + 1) remaining query.ceiling) _ _
    hcarry (pos_iff_ne_zero.mp hremaining)

/-- A match on disk, continued where the journal reaches back to the message after its last. -/
theorem Holds.continueMatch_answers (h : p.Holds stored history)
    (hceiling : query.ceiling + 1 < 2 ^ 64) (hcount : query.count ≠ 0) {selection : Selection}
    {faulted limited : Bool}
    (hdisk : p.DiskServes stored faults query (.matched selection faulted limited)) :
    ∃ returned, p.Answers stored history faults query
      (continueMatch xxh3 p.residentTailSnapshot query selection faulted limited) returned := by
  obtain ⟨ms, rest, last, hms⟩ := h.diskPrefix hdisk
  have hlast_le := hms.last_le
  have hnext : (last.offset + 1) % 2 ^ 64 = last.offset + 1 := mod_eq_of_lt (by omega)
  unfold continueMatch ResidentTailSnapshot.straddleContinuation
  simp only [hms.serves.last, hms.getLast, map_some, bind_some, hnext, hms.serves.matched]
  generalize hremaining : (if limited = true then 0 else query.count - ms.length) = remaining
  by_cases hgate : 0 < remaining ∧
      p.residentTailSnapshot.oldestResident.any (fun oldest => oldest ≤ last.offset + 1) = true
  · rw [if_pos hgate, bind_some]
    have hopen : remaining = query.count - ms.length := by
      cases limited with
      | true => rw [if_pos rfl] at hremaining; omega
      | false => rw [if_neg Bool.false_ne_true] at hremaining; exact hremaining.symm
    refine ⟨((messagesOf history).filter (wanted query)).take query.count, answers_of_all hcount ?_⟩
    rw [hms.split, take_append, take_of_length_le hms.length_le, ← hopen]
    obtain ⟨acc, hselect, hacc⟩ | ⟨hselect, hnil⟩ :=
      h.continuation_serves hms.split hms.getLast hgate.1 hgate.2
    · rw [hselect]
      have happend := serves_append hms.serves hacc
      rwa [hms.serves.last, hms.getLast, hms.serves.matched] at happend
    · rw [hselect, hnil, append_nil]
      exact hms.serves
  · rw [if_neg hgate, bind_none]
    have hne : ms ≠ [] := by
      rintro rfl
      cases hms.getLast
    refine ⟨ms, hms.serves, ⟨rest, hms.split.symm⟩, hms.length_le, fun _ _ _ => hne,
      fun hlt hlt' => ?_⟩
    cases hbroken : limited || faulted with
    | true => exact .inl rfl
    | false =>
      -- every persisted message is served, and the journal starts behind a gap
      obtain ⟨hpersisted, hresident⟩ := hms.whole hbroken hlt
      rw [(Bool.or_eq_false_iff.mp hbroken).1, if_neg Bool.false_ne_true] at hremaining
      obtain ⟨next, hfirst⟩ : ∃ next, rest[0]? = some next := by
        rw [hms.split, length_append] at hlt'
        exact ⟨_, getElem?_eq_getElem (by omega)⟩
      refine .inr (.inr ⟨last, next, hms.getLast, ?_, ?_, hpersisted⟩)
      · rw [hms.split, getElem?_append_right le_rfl, Nat.sub_self]
        exact hfirst
      · obtain ⟨oldest, holdest, hle⟩ := hresident next (mem_of_getElem? hfirst)
        have hgap : ¬ oldest ≤ last.offset + 1 := by
          intro hreach
          refine hgate ⟨by omega, ?_⟩
          rw [show p.residentTailSnapshot.oldestResident = some oldest from holdest,
            any_some]
          exact decide_eq_true hreach
        omega

/-- **The disk tier, continued into the journal.** -/
theorem Holds.disk_answers (h : p.Holds stored history) (hceiling : query.ceiling + 1 < 2 ^ 64)
    (hcount : query.count ≠ 0) :
    ∃ returned, p.Answers stored history faults query
      ((PollTier.disk (p.diskReadPlan query validateChecksum) query
        p.residentTailSnapshot).executeWithLimit xxh3 capacity faults limits) returned := by
  have hdisk := @Holds.readDisk_serves _ _ _ _ query faults capacity limits validateChecksum h hcount
  unfold PollTier.executeWithLimit
  dsimp only
  generalize DiskReadPlan.readDiskWithLimit .. = outcome at hdisk ⊢
  cases outcome with
  | matched selection faulted limited => exact h.continueMatch_answers hceiling hcount hdisk
  | faulted fault =>
    refine ⟨[], serves_nil, List.nil_prefix, zero_le _, fun m hm hfault => ?_,
      fun _ _ => .inr (.inl ⟨rfl, rfl⟩)⟩
    obtain hdir | ⟨through, hat, hthrough⟩ := hdisk
    · exact absurd (.inl hdir) hfault
    · exact absurd (h.fault_before hat hthrough (mem_of_head? hm)) hfault
  | empty =>
    obtain ⟨earlier, shared, newer, hstored, hhistory, hjournal⟩ := h.overlap
    obtain ⟨entries, hcarry, hentries⟩ := residentMessageEntries_eq hjournal.carry hjournal.indexed
    have hearlier : ∀ m ∈ messagesOf earlier, ¬ wanted query m = true := by
      intro m hm
      refine hdisk m ?_
      rw [hstored, messagesOf_append]
      exact mem_append_left _ hm
    have hserved := served_eq_take (hhistory.trans (append_assoc _ _ _)) hearlier
    refine ⟨_, answers_of_all hcount ?_⟩
    dsimp only
    rw [show p.residentTailSnapshot.entries = entries.map Prod.snd from hentries, ← hserved]
    exact serves_getD (selectResident_serves hcarry hcount)

/-! ## What was asked for -/

/-- The offset that a poll of the kind asks for. -/
def requestedOffset (p : PolledPartition) (args : PollingArgs) : Nat :=
  match args.kind with
  | .first => 0
  | .last => p.commitOffset - (args.count - 1)
  | .next => p.consumerOffset.elim 0 (· + 1)
  | _ => args.value

/-- The committed messages at or after the requested offset or timestamp. -/
def requested (p : PolledPartition) (history : List (StoredBatch xxh3)) (args : PollingArgs) :
    List PolledMessage :=
  if p.committedSeeded then
    (messagesOf history).filter fun m => m.offset ≤ p.commitOffset ∧
      if args.kind = .timestamp then args.value ≤ m.timestamp else p.requestedOffset args ≤ m.offset
  else []

variable {args : PollingArgs}

theorem Holds.startOffset_eq (h : p.Holds stored history) :
    p.startOffset args = p.requestedOffset args := by
  unfold startOffset requestedOffset
  cases args.kind with
  | next =>
    cases hconsumer : p.consumerOffset with
    | none => rfl
    | some offset => exact mod_eq_of_lt (h.consumer_lt offset hconsumer)
  | _ => rfl

theorem Holds.requested_of_lookup (h : p.Holds stored history) (hseeded : p.committedSeeded = true)
    (hlookup : p.lookup args = some query) :
    p.requested history args = (messagesOf history).filter (wanted query) ∧
      query.count = args.count ∧ query.ceiling = p.commitOffset := by
  unfold lookup at hlookup
  unfold requested
  rw [if_pos hseeded]
  by_cases hkind : args.kind = .timestamp
  · rw [if_pos hkind] at hlookup
    cases hlookup
    refine ⟨filter_congr fun m _ => ?_, rfl, rfl⟩
    simp [wanted_timestamp, hkind]
  · rw [if_neg hkind] at hlookup
    split_ifs at hlookup
    cases hlookup
    refine ⟨filter_congr fun m _ => ?_, rfl, rfl⟩
    simp [wanted_offset, hkind, h.startOffset_eq]

theorem Holds.requested_of_no_lookup (h : p.Holds stored history)
    (hlookup : p.lookup args = none) : p.requested history args = [] := by
  unfold lookup at hlookup
  unfold requested
  split_ifs at hlookup with hkind hbehind
  rw [h.startOffset_eq] at hbehind
  split
  · refine filter_eq_nil_iff.mpr fun m _ => ?_
    rw [decide_eq_true_eq]
    omega
  · rfl

theorem Holds.requested_after (h : p.Holds stored history) (hseeded : p.committedSeeded = true)
    (hceiling : query.ceiling = p.commitOffset)
    (hall : (messagesOf history).filter (wanted query) = ms ++ rest)
    (hlast : ms.getLast? = some last) (count : Nat) :
    p.requested history ⟨.offset, last.offset + 1, count⟩ = rest := by
  rw [← @filter_wanted_after query _ _ _ count _ (pairwise_messagesOf h.ordered) hall hlast]
  unfold requested
  rw [if_pos hseeded]
  refine filter_congr fun m _ => ?_
  simp [wanted_offset, requestedOffset, hceiling]

theorem Holds.plan_answers (h : p.Holds stored history) (hseeded : p.committedSeeded = true)
    (hcount : args.count ≠ 0) (hlookup : p.lookup args = some query) :
    ∃ returned, p.Answers stored history faults query
      ((p.buildPollPlan xxh3 args validateChecksum).executeWithLimit xxh3 capacity faults limits)
      returned := by
  obtain ⟨-, hquery, hceiling⟩ := h.requested_of_lookup hseeded hlookup
  have hcount' : query.count ≠ 0 := by rwa [hquery]
  have hgo : ¬ (¬ p.committedSeeded = true ∨ args.count = 0) := by simp [hseeded, hcount]
  unfold buildPollPlan
  rw [if_neg hgo, hlookup]
  dsimp only
  by_cases hfirst : p.serveJournalFirst query = true
  · rw [if_pos hfirst]
    have hresident := @Holds.resident_answers _ _ _ _ query faults h hcount' hfirst
    generalize p.journal.getSync xxh3 query = found at hresident
    cases found <;> exact hresident
  · rw [if_neg hfirst]
    exact h.disk_answers (hceiling ▸ h.commit_lt) hcount'

theorem buildPollPlan_eq_empty
    (h : p.committedSeeded = false ∨ args.count = 0 ∨ p.lookup args = none) :
    p.buildPollPlan xxh3 args validateChecksum = .empty := by
  unfold buildPollPlan
  obtain h | h | h := h
  · rw [if_pos (.inl (by simp [h]))]
  · rw [if_pos (.inr h)]
  · split
    · rfl
    · rw [h]

/-- **A poll never skips, repeats or leaks a message.** -/
theorem poll_serves_prefix (h : p.Holds stored history) (args : PollingArgs)
    (validateChecksum : Bool) (capacity : Nat → Nat) (faults : DiskFaults) (limits : PollLimits) :
    let result :=
      (p.buildPollPlan xxh3 args validateChecksum).executeWithLimit xxh3 capacity faults limits
    let returned := readMessages xxh3 result.selection.fragments
    let available := p.requested history args
    returned <+: available ∧ returned.length ≤ args.count ∧
      returned.Pairwise (fun m m' => m.offset < m'.offset) ∧
      (∀ m ∈ returned, m.offset ≤ p.commitOffset) ∧
      (∀ m ∈ available.head?, 0 < args.count → ¬ p.FaultBefore stored faults m → returned ≠ []) ∧
      (returned.length < args.count → returned.length < available.length →
        ShortResult stored available returned result) ∧
      ∀ last, returned.getLast? = some last → ∀ count,
        p.requested history ⟨.offset, last.offset + 1, count⟩ = available.drop returned.length := by
  intro result returned available
  by_cases hgo : p.committedSeeded = true ∧ args.count ≠ 0 ∧ ∃ query, p.lookup args = some query
  · obtain ⟨hseeded, hcount, query, hlookup⟩ := hgo
    obtain ⟨hrequested, hquery, hceiling⟩ := h.requested_of_lookup hseeded hlookup
    obtain ⟨ms, hanswers⟩ := @Holds.plan_answers _ _ _ _ query faults capacity limits
      validateChecksum args h hseeded hcount hlookup
    have hreturned : returned = ms := hanswers.serves.readMessages
    have havailable : available = (messagesOf history).filter (wanted query) := hrequested
    rw [hreturned, havailable, ← hquery]
    have hordered := ((pairwise_messagesOf h.ordered).filter (wanted query)).sublist
      hanswers.isPrefix.sublist
    refine ⟨hanswers.isPrefix, hanswers.length_le, hordered.imp fun hlt => hlt.1, fun m hm => ?_,
      fun m hm _ => hanswers.nonempty m hm, hanswers.short, fun last hlast count => ?_⟩
    · have hwanted := (mem_filter.mp (hanswers.isPrefix.subset hm)).2
      rw [wanted, Bool.and_eq_true, decide_eq_true_eq, hceiling] at hwanted
      exact hwanted.1
    · obtain ⟨rest, hrest⟩ := hanswers.isPrefix
      rw [← hrest, drop_left]
      exact h.requested_after hseeded hceiling hrest.symm hlast count
  · -- nothing is looked for
    have hnone : p.committedSeeded = false ∨ args.count = 0 ∨ p.lookup args = none := by
      by_contra hsome
      simp only [not_or, Bool.not_eq_false] at hsome
      exact hgo ⟨hsome.1, hsome.2.1, ne_none_iff_exists'.mp hsome.2.2⟩
    have hreturned : returned = [] := by
      simp only [returned, result, buildPollPlan_eq_empty hnone]
      exact serves_nil.readMessages
    have havailable : args.count = 0 ∨ available = [] := by
      obtain hseeded | hcount | hlookup := hnone
      · exact .inr (if_neg (by simp [hseeded]))
      · exact .inl hcount
      · exact .inr (h.requested_of_no_lookup hlookup)
    rw [hreturned]
    refine ⟨List.nil_prefix, zero_le _, List.Pairwise.nil, fun _ hm => absurd hm not_mem_nil, fun m hm hpos => ?_,
      fun hlt hlt' => ?_, fun last hlast => ?_⟩
    · obtain hcount | hnil := havailable
      · omega
      · rw [hnil] at hm
        cases hm
    · obtain hcount | hnil := havailable
      · rw [hcount] at hlt
        exact absurd hlt (lt_irrefl _)
      · rw [hnil] at hlt'
        exact absurd hlt' (lt_irrefl _)
    · cases hlast

end PolledPartition

/-! ## Concrete polls -/

def zeroHash (_ : Bytes) : UInt64 := 0

/-- One empty message behind a batch header. -/
def singleBlob : Bytes := (⟨0, 1, 0, 0, 0, 0⟩ : MessageHeader).encode

variable (offset timestamp : Nat)

def singleHeader : Header :=
  ⟨7, offset, timestamp, 0, Batch.headerSize + singleBlob.length, 0, 1⟩

def singleBytes : Bytes :=
  (singleHeader offset timestamp).encode ++ singleBlob

def singlePrepare (op offset timestamp : Nat) : ResidentPrepare where
  header :=
    { operation := .sendMessages, op, size := Iggy.headerSize + (singleBytes offset timestamp).length }
  body := singleBytes offset timestamp

/-- A partition with one segment of `stored` batches and a journal of `resident` ones, each given by
its offset and timestamp. -/
def partitionOf (stored resident : List (Nat × Nat)) (commitOffset : Nat)
    (consumerOffset : Option Nat) : PolledPartition where
  commitOffset
  committedSeeded := true
  consumerOffset
  segments := [{
    startOffset := 0
    size := (stored.flatMap fun b => singleBytes b.1 b.2).length
    maxTimestamp := 9
    sealed := false
    indexes := some [⟨0, 1, 0⟩]
    log := stored.flatMap fun b => singleBytes b.1 b.2
    readIndex := none
    offsetCursor := none
    indexFile := [] }]
  journal := ⟨(resident.zipIdx 1).foldl
    (fun m x => m.upsert x.2 fun _ => singlePrepare x.2 x.1.1 x.1.2) .empty⟩
  partitionDir := .resolved
  meanEncodedMessageSize := none
  widestCommittedBatch := 0

def noFaults : DiskFaults := ⟨fun _ => false, fun _ _ _ => false, fun _ => false⟩

def readFaults : DiskFaults := ⟨fun _ => false, fun _ _ _ => true, fun _ => false⟩

def wideLimits : PollLimits := ⟨2 ^ 30, 2 ^ 30⟩

/-- The offsets that a poll returns, and its result's flags. -/
def pollOffsets (p : PolledPartition) (args : PollingArgs) (faults : DiskFaults) :
    List Nat × Bool × Option ReadError :=
  let result := (p.buildPollPlan zeroHash args true).executeWithLimit zeroHash id faults wideLimits
  ((readMessages zeroHash result.selection.fragments).map PolledMessage.offset, result.truncated,
    result.readError)

/-- A read that fails before the first match leaves an empty result that is not marked truncated;
a timestamp poll over the last offset of all goes round to the first messages again; and so does a
poll behind a stored consumer offset that is the last of all. -/
theorem fault_or_last_offset_breaks_poll :
    pollOffsets (partitionOf [(0, 1)] [] 0 none) ⟨.first, 0, 10⟩ readFaults =
        ([], false, some .transientNotAccepted) ∧
      pollOffsets (partitionOf [(0, 1), (2 ^ 64 - 1, 2)] [(0, 1), (2 ^ 64 - 1, 2)] (2 ^ 64 - 1) none)
          ⟨.timestamp, 0, 10⟩ noFaults =
        ([0, 2 ^ 64 - 1, 0, 2 ^ 64 - 1], false, none) ∧
      pollOffsets (partitionOf [(0, 1)] [] 0 (some (2 ^ 64 - 1))) ⟨.next, 0, 10⟩ noFaults =
        ([0], false, none) := by
  refine ⟨?_, ?_, ?_⟩ <;> decide +kernel

def singleBatch (hoffset : offset < 2 ^ 64) (htimestamp : timestamp < 2 ^ 64) :
    StoredBatch zeroHash where
  raw := singleBytes offset timestamp
  batch := ⟨singleHeader offset timestamp, singleBlob⟩
  isBatch := by
    have hfits : (singleHeader offset timestamp).Fits := by
      simp only [Header.fits_iff, singleHeader]
      refine ⟨by decide, hoffset, htimestamp, ?_⟩
      decide +kernel
    refine ⟨decodeBatchSlice_encode hfits rfl ?_ ?_ ?_ rfl, ?_⟩
    · change (framing.records singleBlob).length = 1
      decide +kernel
    · decide +kernel
    · decide +kernel
    · rw [singleBytes, length_append, Header.length_encode]
      rfl
  ascending := by
    have hone : (framing.records singleBlob).length = 1 := by decide +kernel
    obtain ⟨f, hf⟩ := length_eq_one_iff.mp hone
    change Ascending _ (framing.records singleBlob)
    rw [hf]
    exact pairwise_singleton _ _
  based := by
    have hdelta : ∀ f ∈ framing.records singleBlob, f.header.offsetDelta = 0 := by decide +kernel
    intro f hf
    rw [frameOffset, hdelta f hf]
    exact le_of_eq (mod_eq_of_lt hoffset).symm

theorem carriesBatch_single {op offset timestamp : Nat} (hoffset : offset < 2 ^ 64)
    (htimestamp : timestamp < 2 ^ 64) :
    CarriesBatch (singlePrepare op offset timestamp)
      (singleBatch offset timestamp hoffset htimestamp) :=
  ⟨rfl, rfl, prefix_rfl⟩

instance {b b' : StoredBatch xxh3} : Decidable (b.Before b') := inferInstanceAs (Decidable (_ ∧ _))

instance neZero_four : NeZero 4 := ⟨by decide⟩

/-- The first three offsets of a history, the second one stored and resident. -/
def batchAt (offset : Fin 4) : StoredBatch zeroHash :=
  singleBatch offset (offset + 1) (by omega) (by omega)

/-- The middle one of three batches is in both tiers. -/
def straddled (commitOffset : Nat) : PolledPartition :=
  partitionOf [(0, 1), (1, 2)] [(1, 2), (3, 4)] commitOffset none

def straddledHistory : List (StoredBatch zeroHash) := [batchAt 0, batchAt 1, batchAt 3]

theorem straddled_holds {commitOffset : Nat} (h : commitOffset + 1 < 2 ^ 64) :
    (straddled commitOffset).Holds [[batchAt 0, batchAt 1]] straddledHistory where
  segments := .cons
    { file := ⟨le_rfl, by decide +kernel⟩
      points := by
        intro entry hentry
        obtain rfl : entry = ⟨0, 1, 0⟩ := by simpa [Segment.indexEntries] using hentry
        exact ⟨[], batchAt 0, [batchAt 1], rfl, rfl⟩
      cursor := nofun
      stamped := by decide +kernel } .nil
  starts := by
    intro i segment hsegment
    cases i with
    | zero => exact nofun
    | succ i => exact nomatch hsegment
  ordered := by decide +kernel
  overlap := by
    refine ⟨[batchAt 0], [batchAt 1], [batchAt 3], rfl, rfl, ?_, ?_⟩
    · have hentries : (straddled commitOffset).journal.entries.entries =
          [(1, singlePrepare 1 1 2), (2, singlePrepare 2 3 4)] := by
        simp only [straddled, partitionOf]
        decide +kernel
      rw [hentries]
      exact .take (carriesBatch_single _ _) one_ne_zero
        (.take (carriesBatch_single _ _) one_ne_zero .nil)
    · decide +kernel
  commit_lt := h
  consumer_lt := nofun

/-- What a poll for the first two of the three messages returns. -/
def straddlingPoll : List PolledMessage :=
  readMessages zeroHash (((straddled 3).buildPollPlan zeroHash ⟨.first, 0, 2⟩ true).executeWithLimit zeroHash
    id noFaults wideLimits).selection.fragments

theorem straddling_poll_serves :
    straddlingPoll.map PolledMessage.offset = [0, 1] ∧
    straddlingPoll <+: (straddled 3).requested straddledHistory ⟨.first, 0, 2⟩ ∧
    ∀ count, (straddled 3).requested straddledHistory ⟨.offset, 2, count⟩ =
      ((straddled 3).requested straddledHistory ⟨.first, 0, 2⟩).drop straddlingPoll.length := by
  obtain ⟨hserved, -, -, -, -, -, hnext⟩ := PolledPartition.poll_serves_prefix
    (@straddled_holds 3 (by decide)) ⟨.first, 0, 2⟩ true id noFaults wideLimits
  have heval : straddlingPoll.map PolledMessage.offset = [0, 1] := by decide +kernel
  have hlast : straddlingPoll.getLast?.map PolledMessage.offset = some 1 := by
    rw [← getLast?_map, heval, getLast?_cons_cons, getLast?_singleton]
  obtain ⟨last, hmem, hoffset⟩ := map_eq_some_iff.mp hlast
  refine ⟨heval, hserved, fun count => ?_⟩
  have hrest := hnext last hmem count
  rw [hoffset] at hrest
  exact hrest

end Iggy.Poll
