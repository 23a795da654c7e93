import Iggy.Partitions.PollPlan

/-!
# What a walk over segment files serves

A segment holds stored batches end to end. From between two of them the walk serves what is wanted
of the batches up to the one it stops at: a chunk decides only how many batches a read covers, and a
batch that a chunk cuts is read again from its start. `SegmentStop` is why it stops: the count or
the segment is used up, a limit is reached after a match, or the next batch could not be read.
-/

namespace Iggy.Poll

open List Lib Batch Nat

variable {xxh3 : Bytes → UInt64} {query : MessageLookup}

def rawsOf (bs : List (StoredBatch xxh3)) : Bytes := bs.flatMap StoredBatch.raw

def messagesOf (bs : List (StoredBatch xxh3)) : List PolledMessage :=
  bs.flatMap fun b => messages b.batch

/-- What a reply that holds `ms` holds once it has gone over `bs`. -/
def served (query : MessageLookup) (ms : List PolledMessage) (bs : List (StoredBatch xxh3)) :
    List PolledMessage :=
  ms ++ ((messagesOf bs).filter (wanted query)).take (query.count - ms.length)

section Served

variable {ms : List PolledMessage} {bs bs' : List (StoredBatch xxh3)}

@[simp] theorem rawsOf_append : rawsOf (bs ++ bs') = rawsOf bs ++ rawsOf bs' := flatMap_append

@[simp] theorem rawsOf_nil : rawsOf ([] : List (StoredBatch xxh3)) = [] := rfl

@[simp] theorem rawsOf_cons (b : StoredBatch xxh3) : rawsOf (b :: bs) = b.raw ++ rawsOf bs := rfl

@[simp] theorem messagesOf_append : messagesOf (bs ++ bs') = messagesOf bs ++ messagesOf bs' :=
  flatMap_append

@[simp] theorem served_nil : served query ms ([] : List (StoredBatch xxh3)) = ms := by
  simp [served, messagesOf]

theorem served_served : served query (served query ms bs) bs' = served query ms (bs ++ bs') := by
  simp only [served, messagesOf_append, filter_append, take_append, append_assoc,
    length_append, length_take]
  congr 3
  omega

theorem served_append_left (h : ∀ m ∈ messagesOf bs, ¬ wanted query m = true) :
    served query ms (bs ++ bs') = served query ms bs' := by
  rw [served, messagesOf_append, filter_append, filter_eq_nil_iff.mpr h, nil_append, served]

theorem served_of_full (h : query.count ≤ ms.length) : served query ms bs = ms := by
  rw [served, Nat.sub_eq_zero_of_le h, take_zero, append_nil]

theorem length_raw_pos (b : StoredBatch xxh3) : Batch.headerSize ≤ b.raw.length :=
  b.isBatch.headerSize_le

theorem length_le_length_rawsOf : bs.length ≤ (rawsOf bs).length := by
  induction bs with
  | nil => exact le_rfl
  | cons b bs ih =>
    have hb := length_raw_pos b
    unfold Batch.headerSize at hb
    rw [rawsOf_cons, length_append, length_cons]
    omega

end Served

/-! ## One chunk -/

/-- The reply is full, or the next batch does not fit the chunk, and its header, where the chunk
reaches that far, said how long it is. -/
def ChunkStop (chunk : Bytes) (matched : Nat) (todo : List (StoredBatch xxh3))
    (query : MessageLookup) (walked : ChunkWalk) : Prop :=
  query.count ≤ matched ∨ ∀ b ∈ todo.head?, chunk.length < walked.consumed + b.raw.length ∧
    (walked.consumed + Batch.headerSize ≤ chunk.length → walked.needed = b.raw.length)

theorem prefix_drop {pre rest : Bytes} {chunk : Bytes} {cursor : Nat}
    (h : chunk.drop cursor <+: pre ++ rest) (hfit : cursor + pre.length ≤ chunk.length) :
    chunk.drop cursor = pre ++ chunk.drop (cursor + pre.length) ∧
      chunk.drop (cursor + pre.length) <+: rest := by
  have hlen : pre.length ≤ (chunk.drop cursor).length := by
    rw [length_drop]
    omega
  obtain ⟨tail, htail⟩ := prefix_of_prefix_length_le (prefix_append pre rest) h hlen
  rw [← drop_drop, ← htail, drop_left]
  rw [← htail] at h
  exact ⟨rfl, (prefix_append_right_inj pre).mp h⟩

/-- **One chunk.** The walk serves the batches it went over; it takes a batch for damaged only where
that is wider than any prepare. -/
theorem walkDiskChunk_serves {integrity : Integrity} {chunk : Bytes} {fuel cursor : Nat}
    {acc : Selection} {ms : List PolledMessage} {bs : List (StoredBatch xxh3)}
    (hserves : acc.Serves xxh3 ms) (hchunk : chunk.drop cursor <+: rawsOf bs)
    (hcursor : cursor ≤ chunk.length) (hfuel : chunk.length ≤ cursor + fuel) :
    ∃ done todo acc' walked, bs = done ++ todo ∧
      walkDiskChunk xxh3 integrity query chunk fuel cursor acc = (acc', walked) ∧
      acc'.Serves xxh3 (served query ms done) ∧
      (walked.corrupt = false → walked.consumed = cursor + (rawsOf done).length ∧
        walked.consumed ≤ chunk.length ∧ ChunkStop chunk acc'.matched todo query walked) ∧
      (walked.corrupt = true → ∃ b ∈ todo.head?, prepareBytesMax < b.raw.length) := by
  induction fuel generalizing cursor acc ms bs with
  | zero =>
    have hend : cursor = chunk.length := by omega
    refine ⟨[], bs, acc, _, rfl, rfl, by rwa [served_nil], fun _ => ⟨?_, ?_, .inr ?_⟩, nofun⟩
    · simp [hend]
    · exact min_le_right _ _
    · intro b _
      have hb := length_raw_pos b
      unfold Batch.headerSize at hb ⊢
      simp only [hend, min_self]
      exact ⟨by omega, fun h => by omega⟩
  | succ fuel ih =>
    rw [walkDiskChunk]
    by_cases hgo : acc.matched < query.count ∧ cursor + Batch.headerSize ≤ chunk.length
    · rw [if_pos hgo]
      obtain ⟨hroom, hheader⟩ := hgo
      cases bs with
      | nil =>
        have hnil : chunk.drop cursor = [] := prefix_nil.mp hchunk
        have hpos : 0 < (chunk.drop cursor).length := by
          rw [length_drop]
          unfold Batch.headerSize at hheader
          omega
        rw [hnil] at hpos
        exact absurd hpos (by simp)
      | cons b bs =>
        rw [rawsOf_cons] at hchunk
        by_cases hfit : cursor + b.raw.length ≤ chunk.length
        · -- the batch lies in the chunk
          obtain ⟨hsplit, hrest⟩ := prefix_drop hchunk hfit
          have hb := length_raw_pos b
          unfold Batch.headerSize at hb
          have hdecode : decodeBatchSliceWith xxh3 (chunk.drop cursor) integrity = .ok b.batch := by
            rw [hsplit]
            exact decodeBatchSliceWith_append b.isBatch.1 b.isBatch.2 _
          have hpush := @serves_pushBatch _ _ _ query hserves b
            (chunk.drop (cursor + b.raw.length))
          rw [← hsplit] at hpush
          simp only [hdecode, ← b.isBatch.2]
          obtain ⟨done, todo, acc', walked, rfl, hwalk, hserves', hstop, hwide⟩ :=
            @ih _ _ (served query ms [b]) _ (by simpa [served, messagesOf] using hpush) hrest hfit
              (by omega)
          refine ⟨b :: done, todo, acc', walked, rfl, hwalk, ?_, fun hok => ?_, hwide⟩
          · rwa [served_served] at hserves'
          · obtain ⟨hconsumed, hle, hstop⟩ := hstop hok
            refine ⟨?_, hle, hstop⟩
            rw [hconsumed, rawsOf_cons, length_append]
            omega
        · -- the chunk cuts the batch behind its header
          have hlen : (chunk.drop cursor).length = chunk.length - cursor := length_drop
          have hcut : chunk.drop cursor = b.raw.take (chunk.length - cursor) := by
            rw [← hlen]
            exact prefix_iff_eq_take.mp
              (prefix_of_prefix_length_le hchunk (prefix_append ..) (by omega))
          have hdecode : decodeBatchSliceWith xxh3 (chunk.drop cursor) integrity =
              .error (.unexpectedEof 0 b.batch.header.batchLength (chunk.length - cursor)) := by
            rw [hcut]
            exact decodeBatchSliceWith_take b.isBatch.1 (by omega) (by omega)
              (by rw [← b.isBatch.2]; omega)
          simp only [hdecode, ← b.isBatch.2]
          by_cases hwidth : b.raw.length ≤ prepareBytesMax
          · refine ⟨[], b :: bs, acc, _, rfl, if_pos hwidth, by rwa [served_nil], fun _ => ?_,
              nofun⟩
            refine ⟨by simp [min_eq_left hcursor], min_le_right _ _, .inr ?_⟩
            intro x hx
            cases hx
            simp only [min_eq_left hcursor]
            exact ⟨by omega, fun _ => trivial⟩
          · exact ⟨[], b :: bs, acc, _, rfl, if_neg hwidth, by rwa [served_nil], nofun,
              fun _ => ⟨b, rfl, not_le.mp hwidth⟩⟩
    · rw [if_neg hgo]
      refine ⟨[], bs, acc, _, rfl, rfl, by rwa [served_nil], fun _ => ?_, nofun⟩
      refine ⟨by simp [min_eq_left hcursor], min_le_right _ _, ?_⟩
      by_cases hfull : query.count ≤ acc.matched
      · exact .inl hfull
      · refine .inr fun b _ => ?_
        have hb := length_raw_pos b
        simp only [min_eq_left hcursor]
        exact ⟨by omega, fun h => absurd ⟨not_le.mp hfull, h⟩ hgo⟩

/-! ## One segment -/

structure DiskSegment.Holds (segment : DiskSegment) (bs : List (StoredBatch xxh3)) : Prop where
  covers : segment.persisted ≤ segment.log.length
  bytes : segment.log.take segment.persisted = rawsOf bs

variable (faults : DiskFaults)

/-- The batch after `before` was not read: the read failed, or the batch is wider than any prepare
and taken for damage. -/
def Unread (segment : DiskSegment) (before todo : List (StoredBatch xxh3)) : Prop :=
  (∃ length, faults.readFails segment.startOffset (rawsOf before).length length = true) ∨
    ∃ b ∈ todo.head?, prepareBytesMax < b.raw.length

def SegmentStop (segment : DiskSegment) (before todo : List (StoredBatch xxh3))
    (query : MessageLookup) (wasLimited : Bool) (walk : DiskWalk) : SegmentWalk → Prop
  | .done => walk.limited = wasLimited ∧ (todo = [] ∨ query.count ≤ walk.selection.matched)
  | .limited => walk.limited = true ∧ 0 < walk.selection.matched
  | .faulted _ => walk.limited = wasLimited ∧ Unread faults segment before todo

section Segment

variable {segment : DiskSegment} {faults : DiskFaults} {limits : PollLimits} {plan : DiskReadPlan}
  {capacity : Nat → Nat} {before bs : List (StoredBatch xxh3)} {ms : List PolledMessage}
  {walk : DiskWalk}

theorem DiskSegment.Holds.length_rawsOf (h : segment.Holds (before ++ bs)) :
    (rawsOf before).length + (rawsOf bs).length = segment.persisted := by
  have hlen := congrArg List.length h.bytes
  rw [length_take, min_eq_left h.covers, rawsOf_append, length_append] at hlen
  exact hlen.symm

theorem DiskSegment.Holds.readChunk_eq (h : segment.Holds (before ++ bs)) {length : Nat}
    (hlen : length ≤ (rawsOf bs).length) :
    readChunk faults segment (rawsOf before).length length =
      if faults.readFails segment.startOffset (rawsOf before).length length = true then none
      else some ((rawsOf bs).take length) := by
  have hsum := h.length_rawsOf
  have hcovers := h.covers
  have hdrop : (segment.log.drop (rawsOf before).length).take (rawsOf bs).length = rawsOf bs := by
    have hbytes := congrArg (List.drop (rawsOf before).length) h.bytes
    rw [rawsOf_append, drop_left, drop_take] at hbytes
    rwa [show segment.persisted - (rawsOf before).length = (rawsOf bs).length by omega] at hbytes
  have hlong : ¬ segment.log.length < (rawsOf before).length + length := by omega
  simp only [readChunk, hlong, or_false]
  rw [← hdrop, take_take, min_eq_left hlen]

theorem skipped_ite (c : Prop) [Decidable c] : (if c then { walk with skipped := 0 } else walk) =
    { walk with skipped := if c then 0 else walk.skipped } := by
  split <;> rfl

theorem headerSize_le_nextChunkLen {count : Nat} :
    Batch.headerSize ≤ plan.nextChunkLen limits walk count := by
  unfold DiskReadPlan.nextChunkLen DiskReadPlan.chunkLen
  refine le_trans ?_ (le_max_left _ _)
  exact le_trans (by decide) (le_max_left _ _)

variable {wasLimited : Bool} {done todo : List (StoredBatch xxh3)} {result : DiskWalk × SegmentWalk}
  {fuel chunkLen : Nat}

variable (query segment faults before bs ms wasLimited result) in
/-- What a walk over `bs` from behind `before` comes to. -/
def SegmentServed : Prop :=
  ∃ done todo, bs = done ++ todo ∧ result.1.selection.Serves xxh3 (served query ms done) ∧
    SegmentStop faults segment (before ++ done) todo query wasLimited result.1 result.2

theorem SegmentServed.stay (hserves : result.1.selection.Serves xxh3 ms)
    (hstop : SegmentStop faults segment before bs query wasLimited result.1 result.2) :
    SegmentServed query segment faults before bs ms wasLimited result :=
  ⟨[], bs, rfl, by rwa [served_nil], by rwa [append_nil]⟩

theorem SegmentServed.behind
    (h : SegmentServed query segment faults (before ++ done) todo (served query ms done) wasLimited
      result) : SegmentServed query segment faults before (done ++ todo) ms wasLimited result := by
  obtain ⟨done', todo', rfl, hserves, hstop⟩ := h
  refine ⟨done ++ done', todo', (append_assoc ..).symm, ?_, ?_⟩
  · rwa [served_served] at hserves
  · rwa [append_assoc] at hstop

variable (query segment faults limits before bs walk chunkLen) in
/-- The next turn of the walk reads a chunk. -/
structure Reads : Prop where
  room : walk.selection.matched < query.count
  inside : walk.position < segment.persisted
  not_full : ¬ walk.full limits (min (rawsOf bs).length chunkLen) = true
  read : ¬ faults.readFails segment.startOffset (rawsOf before).length
    (min (rawsOf bs).length chunkLen) = true

section Turn

variable (hseg : segment.Holds (before ++ bs)) (hposition : walk.position = (rawsOf before).length)
  (hserves : walk.selection.Serves xxh3 ms)

include hseg hposition hserves

theorem walkSegment_halts (hhalt : ¬ Reads query segment faults limits before bs walk chunkLen) :
    SegmentServed query segment faults before bs ms walk.limited
      (walkSegment xxh3 capacity plan faults limits query segment (fuel + 1) chunkLen walk) := by
  have hsum := hseg.length_rawsOf
  have hleft : segment.persisted - walk.position = (rawsOf bs).length := by omega
  simp only [walkSegment, hleft]
  by_cases hgo : walk.selection.matched < query.count ∧ walk.position < segment.persisted
  · rw [if_pos hgo]
    by_cases hfull : walk.full limits (min (rawsOf bs).length chunkLen) = true
    · rw [if_pos hfull]
      simp only [DiskWalk.full, Bool.and_eq_true, decide_eq_true_eq] at hfull
      exact .stay hserves ⟨rfl, hfull.1⟩
    · have hfail := not_not.mp fun hread => hhalt ⟨hgo.1, hgo.2, hfull, hread⟩
      rw [if_neg hfull, hposition, hseg.readChunk_eq (min_le_left _ _), if_pos hfail]
      exact .stay hserves ⟨rfl, .inl ⟨_, hfail⟩⟩
  · rw [if_neg hgo]
    refine .stay hserves ⟨rfl, ?_⟩
    by_cases hcount : query.count ≤ walk.selection.matched
    · exact .inr hcount
    · have hlen := @length_le_length_rawsOf _ bs
      have hnot : ¬ walk.position < segment.persisted := fun h => hgo ⟨not_le.mp hcount, h⟩
      exact .inl (length_eq_zero_iff.mp (by omega))

/-- A turn that reads a chunk ends the walk, or the walk goes on behind the batches it took. Where
it took none, the next turn reads exactly the batch that the chunk cuts. -/
theorem walkSegment_reads (hchunk : Batch.headerSize ≤ chunkLen)
    (hreads : Reads query segment faults limits before bs walk chunkLen) :
    SegmentServed query segment faults before bs ms walk.limited
      (walkSegment xxh3 capacity plan faults limits query segment (fuel + 1) chunkLen walk) ∨
    ∃ done todo len next, bs = done ++ todo ∧
      walkSegment xxh3 capacity plan faults limits query segment (fuel + 1) chunkLen walk =
        walkSegment xxh3 capacity plan faults limits query segment fuel len next ∧
      next.position = (rawsOf (before ++ done)).length ∧
      next.selection.Serves xxh3 (served query ms done) ∧ next.limited = walk.limited ∧
      Batch.headerSize ≤ len ∧
      (1 ≤ done.length ∨ ∃ b ∈ todo.head?, chunkLen < b.raw.length ∧ len = b.raw.length) := by
  obtain ⟨hroom, hinside, hfull, hread⟩ := hreads
  have hsum := hseg.length_rawsOf
  have hleft : segment.persisted - walk.position = (rawsOf bs).length := by omega
  simp only [walkSegment, hleft]
  generalize hlength : min (rawsOf bs).length chunkLen = length at hfull hread ⊢
  have hlength_le : length ≤ (rawsOf bs).length := by omega
  rw [if_pos ⟨hroom, hinside⟩, if_neg hfull, hposition, hseg.readChunk_eq hlength_le, if_neg hread]
  have htake : ((rawsOf bs).take length).length = length := by
    rw [length_take, min_eq_left hlength_le]
  obtain ⟨done, todo, acc, walked, rfl, hwalk, hacc, hstop, hwide⟩ :=
    @walkDiskChunk_serves xxh3 query plan.integrity ((rawsOf bs).take length) length 0
      walk.selection ms bs hserves (List.take_prefix _ _) (zero_le _) (by omega)
  simp only [htake, hwalk]
  -- of the accounting only the selection, the position and the mark matter from here on
  have hselection : (walk.account capacity length acc).selection = acc := rfl
  have hsame : (walk.account capacity length acc).position = walk.position := rfl
  have hmark : (walk.account capacity length acc).limited = walk.limited := rfl
  generalize walk.account capacity length acc = next at hselection hsame hmark
  by_cases hover : 0 < next.selection.matched ∧ limits.maxBytes < next.retainedBytes
  · rw [if_pos hover]
    exact .inl ⟨done, todo, rfl, hselection ▸ hacc, rfl, hover.1⟩
  rw [if_neg hover]
  cases hcorrupt : walked.corrupt with
  | true => exact .inl ⟨done, todo, rfl, hselection ▸ hacc, hmark, .inr (hwide hcorrupt)⟩
  | false =>
    obtain ⟨hconsumed, -, hstop⟩ := hstop hcorrupt
    simp only [Bool.false_eq_true, if_false]
    rw [zero_add] at hconsumed
    refine .inr ?_
    by_cases hzero : walked.consumed = 0
    · obtain rfl : done = [] := by
        have hlen := @length_le_length_rawsOf _ done
        exact length_eq_zero_iff.mp (by omega)
      obtain hcount | hstop := hstop
      · rw [hacc.matched, served_nil, ← hserves.matched] at hcount
        omega
      cases todo with
      | nil => rw [append_nil, rawsOf_nil, length_nil] at hsum; omega
      | cons b todo =>
        obtain ⟨hcut, hneeded⟩ := hstop b rfl
        rw [htake, hzero, zero_add] at hcut hneeded
        have hb : (rawsOf (b :: todo)).length = b.raw.length + (rawsOf todo).length := length_append
        rw [nil_append] at hlength hlength_le ⊢
        have hneed : walked.needed = b.raw.length := hneeded (by omega)
        rw [if_pos hzero, if_neg (by omega), if_neg (by omega), if_pos (by omega), hneed]
        exact ⟨[], b :: todo, _, _, rfl, rfl, by rw [append_nil]; exact hsame.trans hposition,
          hselection ▸ hacc, hmark, length_raw_pos b, .inr ⟨b, rfl, by omega, rfl⟩⟩
    · rw [if_neg hzero, skipped_ite]
      refine ⟨done, todo, _, _, rfl, rfl, ?_, hselection ▸ hacc, hmark, headerSize_le_nextChunkLen,
        .inl ?_⟩
      · rw [rawsOf_append, length_append]
        exact congrArg₂ (· + ·) (hsame.trans hposition) hconsumed
      · cases done with
        | nil => exact absurd hconsumed hzero
        | cons => exact succ_le_succ (zero_le _)

/-- **One segment.** -/
theorem walkSegment_serves (hchunk : Batch.headerSize ≤ chunkLen)
    -- a turn that takes no batch is followed by one whose chunk covers the next
    (hfuel : 2 * bs.length + 1 ≤ fuel ∨
      ∃ b ∈ bs.head?, b.raw.length ≤ chunkLen ∧ 2 * bs.length ≤ fuel) :
    SegmentServed query segment faults before bs ms walk.limited
      (walkSegment xxh3 capacity plan faults limits query segment fuel chunkLen walk) := by
  induction fuel generalizing before bs ms walk chunkLen with
  | zero =>
    obtain hfuel | ⟨b, hb, -, hfuel⟩ := hfuel
    · omega
    · cases bs with
      | nil => cases hb
      | cons => rw [length_cons] at hfuel; omega
  | succ fuel ih =>
    by_cases hreads : Reads query segment faults limits before bs walk chunkLen
    case neg => exact walkSegment_halts hseg hposition hserves hreads
    obtain hend | ⟨done, todo, len, next, rfl, hturn, hposition', hserves', hmark, hlen, htook⟩ :=
      walkSegment_reads hseg hposition hserves hchunk hreads
    · exact hend
    rw [hturn, ← hmark]
    refine .behind (ih (by rwa [append_assoc]) hposition' hserves' hlen ?_)
    rw [length_append] at hfuel
    obtain hpos | ⟨b, hb, hcut, rfl⟩ := htook
    · obtain hfuel | ⟨_, _, _, hfuel⟩ := hfuel <;> exact .inl (by omega)
    · refine .inr ⟨b, hb, le_rfl, ?_⟩
      obtain hfuel | ⟨b', hb', hwide, hfuel⟩ := hfuel
      · omega
      · cases done with
        | nil =>
          obtain rfl := Option.some.inj (hb'.symm.trans hb)
          omega
        | cons => rw [length_cons] at hfuel; omega

end Turn

end Segment

/-! ## All segments -/

/-- The walk stopped behind `through` because something there could not be read: the file of the
next segment, or the next batch of it. -/
def FaultAt (segments : List DiskSegment) (stored : List (List (StoredBatch xxh3)))
    (through : List (StoredBatch xxh3)) : Prop :=
  ∃ segs segment segs' earlier before todo later,
    segments = segs ++ segment :: segs' ∧ stored = earlier ++ (before ++ todo) :: later ∧
    segs.length = earlier.length ∧ through = earlier.flatten ++ before ∧
    (faults.openFails segment.startOffset = true ∨ Unread faults segment before todo)

theorem FaultAt.cons {faults : DiskFaults} {segments : List DiskSegment}
    {stored : List (List (StoredBatch xxh3))} {through : List (StoredBatch xxh3)}
    (h : FaultAt faults segments stored through) (segment : DiskSegment)
    (bs : List (StoredBatch xxh3)) :
    FaultAt faults (segment :: segments) (bs :: stored) (bs ++ through) := by
  obtain ⟨segs, seg, segs', earlier, before, todo, later, rfl, rfl, hlen, rfl, hfault⟩ := h
  refine ⟨segment :: segs, seg, segs', bs :: earlier, before, todo, later, rfl, rfl, ?_, ?_, hfault⟩
  · rw [length_cons, length_cons, hlen]
  · rw [flatten_cons, append_assoc]

def WalkStop (segments : List DiskSegment) (stored : List (List (StoredBatch xxh3)))
    (through todo : List (StoredBatch xxh3)) (query : MessageLookup) (wasLimited : Bool)
    (walk : DiskWalk) : Option DiskFault → Prop
  | none => (walk.limited = true ∧ 0 < walk.selection.matched) ∨
      walk.limited = wasLimited ∧ (todo = [] ∨ query.count ≤ walk.selection.matched)
  | some _ => walk.limited = wasLimited ∧ FaultAt faults segments stored through

section Segments

variable {faults : DiskFaults} {limits : PollLimits} {plan : DiskReadPlan} {capacity : Nat → Nat}
  {segments : List DiskSegment} {stored : List (List (StoredBatch xxh3))}
  {before : List (StoredBatch xxh3)} {ms : List PolledMessage} {walk : DiskWalk}

/-- **The walk over the segments.** -/
theorem walkSegments_serves (hstored : List.Forall₂ DiskSegment.Holds segments stored)
    (hbefore : before <+: stored.headD []) (hposition : walk.position = (rawsOf before).length)
    (hserves : walk.selection.Serves xxh3 ms) :
    ∃ done todo walk' fault, stored.flatten = before ++ done ++ todo ∧
      walkSegments xxh3 capacity plan faults limits query segments walk = (walk', fault) ∧
      walk'.selection.Serves xxh3 (served query ms done) ∧
      WalkStop faults segments stored (before ++ done) todo query walk.limited walk' fault := by
  induction hstored generalizing before ms walk with
  | nil =>
    obtain rfl := prefix_nil.mp hbefore
    exact ⟨[], [], walk, none, rfl, rfl, by rwa [served_nil], .inr ⟨rfl, .inl rfl⟩⟩
  | @cons segment bs segments stored hseg hrest ih =>
    obtain ⟨rest, rfl⟩ : ∃ rest, before ++ rest = bs := hbefore
    have hsum := hseg.length_rawsOf
    rw [walkSegments]
    by_cases hfull : query.count ≤ walk.selection.matched
    · rw [if_pos hfull]
      refine ⟨[], rest ++ stored.flatten, walk, none, ?_, rfl, by rwa [served_nil],
        .inr ⟨rfl, .inr hfull⟩⟩
      rw [flatten_cons, append_nil, append_assoc]
    rw [if_neg hfull]
    -- a segment that is used up leaves the walk at the first byte of the next
    have hnext : ∀ walk₁ : DiskWalk, walk₁.limited = walk.limited →
        walk₁.selection.Serves xxh3 (served query ms rest) →
        ∃ done todo walk' fault, ((before ++ rest) :: stored).flatten = before ++ done ++ todo ∧
          walkSegments xxh3 capacity plan faults limits query segments
            { walk₁ with position := 0 } = (walk', fault) ∧
          walk'.selection.Serves xxh3 (served query ms done) ∧
          WalkStop faults (segment :: segments) ((before ++ rest) :: stored) (before ++ done) todo
            query walk.limited walk' fault := by
      intro walk₁ hmark hserves₁
      obtain ⟨done, todo, walk', fault, hsplit, hrun, hserves', hstop⟩ :=
        @ih [] (served query ms rest) { walk₁ with position := 0 } (List.nil_prefix) rfl hserves₁
      rw [nil_append] at hsplit hstop
      refine ⟨rest ++ done, todo, walk', fault, ?_, hrun, ?_, ?_⟩
      · rw [flatten_cons, hsplit]
        simp only [append_assoc]
      · rwa [served_served] at hserves'
      · rw [← hmark]
        cases fault with
        | none => exact hstop
        | some fault =>
          refine ⟨hstop.1, ?_⟩
          rw [← append_assoc]
          exact hstop.2.cons segment (before ++ rest)
    by_cases hskip : segment.persisted = 0 ∨ segment.persisted ≤ walk.position
    · rw [if_pos hskip]
      obtain rfl : rest = [] := by
        have hlen := @length_le_length_rawsOf _ rest
        exact length_eq_zero_iff.mp (by omega)
      exact hnext walk rfl (by rwa [served_nil])
    rw [if_neg hskip]
    by_cases hopen : faults.openFails segment.startOffset = true
    · rw [if_pos hopen]
      refine ⟨[], rest ++ stored.flatten, walk, some .retryable, ?_, rfl, by rwa [served_nil], rfl,
        [], segment, segments, [], before, rest, stored, rfl, rfl, rfl, ?_, .inl hopen⟩
      · rw [flatten_cons, append_nil, append_assoc]
      · rw [append_nil, flatten_nil, nil_append]
    rw [if_neg hopen]
    have hturns : 2 * rest.length + 1 ≤ 2 * segment.persisted + 2 := by
      have hlen := @length_le_length_rawsOf _ rest
      omega
    obtain ⟨done, todo, rfl, hserves₁, hstop⟩ :=
      @walkSegment_serves xxh3 query segment faults limits plan capacity before rest ms walk _ _
        hseg hposition hserves (@headerSize_le_nextChunkLen limits plan walk query.count)
        (.inl hturns)
    generalize walkSegment .. = run at hserves₁ hstop ⊢
    obtain ⟨walk₁, outcome⟩ := run
    have hflatten : ((before ++ (done ++ todo)) :: stored).flatten =
        before ++ done ++ (todo ++ stored.flatten) := by
      simp only [flatten_cons, append_assoc]
    cases outcome with
    | limited => exact ⟨done, todo ++ stored.flatten, walk₁, none, hflatten, rfl, hserves₁, .inl hstop⟩
    | faulted fault =>
      refine ⟨done, todo ++ stored.flatten, walk₁, some fault, hflatten, rfl, hserves₁, hstop.1,
        [], segment, segments, [], before ++ done, todo, stored, rfl, ?_, rfl, ?_, .inr hstop.2⟩
      · rw [nil_append, append_assoc]
      · rw [flatten_nil, nil_append]
    | done =>
      obtain ⟨hmark, rfl | hcount⟩ := hstop
      · rw [append_nil] at hnext ⊢
        exact hnext walk₁ hmark hserves₁
      · refine ⟨done, todo ++ stored.flatten, { walk₁ with position := 0 }, none, hflatten, ?_,
          hserves₁, .inr ⟨hmark, .inr hcount⟩⟩
        cases segments with
        | nil => rfl
        | cons segment segments => exact if_pos hcount

end Segments

end Iggy.Poll
