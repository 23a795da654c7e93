import Iggy.Partitions.BatchChain
import Iggy.Partitions.PollServes

/-!
# The two reads of the resident journal

`get_sync` seeks the first op by an index and walks on by op, `select_resident` goes over a snapshot
taken in offset order. Where the batches do not overlap, neither offsets nor timestamps fall with the op
and offsets ascend inside each batch, both return the first messages that the query wants, and nothing
exactly when there are none. The order inside a batch is the producer's: a poll for everything returns
the messages as they are stored (`ascending_of_poll_for_everything`).
-/

namespace Iggy.Poll

open List Lib Batch

variable {xxh3 : Bytes → UInt64} {query : MessageLookup} {bs : List (StoredBatch xxh3)}

/-- The first messages of `bs` that the query wants. -/
def firstWanted (query : MessageLookup) (bs : List (StoredBatch xxh3)) : List PolledMessage :=
  ((messagesOf bs).filter (wanted query)).take query.count

/-- A read returned the messages `ms`: nothing if there are none, else fragments that read as `ms`,
with their number and the last offset. -/
inductive Returned (xxh3 : Bytes → UInt64) (ms : List PolledMessage) : Option Selection → Prop
  | nothing (hnil : ms = []) : Returned xxh3 ms none
  | messages {acc : Selection} (hne : ms ≠ []) (hserves : acc.Serves xxh3 ms) :
    Returned xxh3 ms (some acc)

/-- A walk has a last offset once it has a fragment. -/
def Selection.Dated (acc : Selection) : Prop := acc.fragments = [] ∨ acc.lastMatchingOffset ≠ none

variable {acc : Selection}

theorem dated_tryPush (h : acc.Dated) (p : ResidentPrepare) :
    (tryPushResidentEntry xxh3 query acc p).Dated := by
  unfold tryPushResidentEntry
  split
  · exact h
  · unfold pushBatch
    split
    · exact h
    · exact .inr (Option.some_ne_none _)

theorem dated_pushResidentEntries (entries : List ResidentPrepare) (h : acc.Dated) :
    (pushResidentEntries xxh3 query entries acc).Dated := by
  induction entries generalizing acc with
  | nil => exact h
  | cons p rest ih =>
    rw [pushResidentEntries]
    split
    · exact h
    · exact ih (dated_tryPush h p)

theorem returned_of_serves {ms : List PolledMessage} (hserves : acc.Serves xxh3 ms)
    (hdated : acc.Dated) :
    Returned xxh3 ms (if acc.fragments.isEmpty then none else some acc) := by
  split
  case isTrue hempty => exact .nothing (hserves.eq_nil hempty)
  case isFalse hfull =>
    refine .messages (fun hnil => ?_) hserves
    rcases hdated with hnone | hlast
    · exact hfull (isEmpty_iff.mpr hnone)
    · exact hlast (by rw [hserves.last, hnil]; rfl)

theorem selectResident_returned {entries : List (Nat × ResidentPrepare)}
    (h : Carry xxh3 entries bs) :
    Returned xxh3 (firstWanted query bs) (selectResident xxh3 (entries.map Prod.snd) query) := by
  have hserves := @pushResidentEntries_serves _ query _ _ _ _ h serves_nil
  unfold selectResident
  split
  case isTrue hzero => exact .nothing (by rw [firstWanted, hzero, take_zero])
  case isFalse => exact returned_of_serves hserves (dated_pushResidentEntries _ (.inl rfl))

theorem dated_getSync {j : PollJournal} (h : j.getSync xxh3 query = some acc) :
    acc.fragments.isEmpty = false ∧ acc.Dated := by
  unfold PollJournal.getSync at h
  cases hstart : j.candidateStartOp query with
  | none =>
    rw [hstart] at h
    cases h
  | some op =>
    rw [hstart] at h
    simp only [Option.bind_eq_bind, Option.bind_some] at h
    split_ifs at h with hfull
    cases h
    exact ⟨Bool.eq_false_iff.mpr hfull, dated_pushResidentEntries _ (.inl rfl)⟩

theorem getSync_returned {j : PollJournal} (hcarry : Carry xxh3 j.entries.entries bs)
    (hindexed : j.indexed.Pairwise Precedes) :
    Returned xxh3 (firstWanted query bs) (j.getSync xxh3 query) := by
  obtain ⟨acc, hsync, hserves⟩ | ⟨hsync, hnil⟩ := @getSync_serves _ query _ _ hcarry hindexed
  · obtain ⟨hfull, hdated⟩ := dated_getSync hsync
    have hreturned := returned_of_serves hserves hdated
    rw [hfull] at hreturned
    rwa [hsync]
  · rw [hsync]
    exact .nothing hnil

theorem ascending_messagesOf (h : bs.Pairwise StoredBatch.NotAfter) :
    (messagesOf bs).Pairwise fun m m' => m.offset < m'.offset := by
  induction h with
  | nil => exact Pairwise.nil
  | @cons b bs hb _ ih =>
    refine pairwise_append.mpr ⟨pairwise_map.mpr b.ascending, ih, fun m hm m' hm' => ?_⟩
    obtain ⟨b', hb', hm'⟩ := mem_flatMap.mp hm'
    exact Nat.lt_of_lt_of_le ((hb b' hb').1 m hm) (base_le_of_mem hm')

def everything (count : Nat) : MessageLookup := .offset 0 count (2 ^ 64 - 1)

theorem selectBatchSlice_everything {raw : Bytes} {batch : BatchRef} (h : IsBatch xxh3 raw batch)
    {count matched : Nat} (hroom : matched + batch.frames.length ≤ count) :
    selectBatchSlice batch (everything count) matched =
      sliceOf batch.header (fun _ => true) [] batch.frames := by
  have hsel : selectsFrame batch.header (everything count) = fun _ => true := by
    funext f
    simp [selectsFrame, everything, MessageLookup.selects]
  obtain ⟨pre, chosen, post, hframes, hspans, hfilter, hselect⟩ :=
    selectBatchSlice_sliceOf h.tiled.1 (everything count) matched
  rw [hsel] at hspans hfilter hselect
  have hvisible : visibleFrames batch.header (everything count) batch.frames = batch.frames :=
    visibleFrames_max rfl
  have hall : chosen = batch.frames := by
    simp only [filter_true, hvisible] at hfilter
    rw [hfilter, take_of_length_le]
    exact Nat.le_sub_of_add_le' hroom
  have hpre : pre = [] := by simpa using hspans.before
  rw [hselect, hpre, hall]

theorem serves_everything {raw tail : Bytes} {batch : BatchRef} {ms : List PolledMessage}
    {count : Nat} (hserves : acc.Serves xxh3 ms) (h : IsBatch xxh3 raw batch)
    (hroom : ms.length + batch.frames.length ≤ count) :
    (pushBatch xxh3 (everything count) acc (raw ++ tail) batch).Serves xxh3
      (ms ++ messages batch) := by
  rw [pushBatch, selectBatchSlice_everything h (hserves.matched ▸ hroom), sliceOf, filter_true]
  cases hlast : batch.frames.getLast? with
  | none =>
    rw [messages, getLast?_eq_none_iff.mp hlast, map_nil, append_nil]
    exact hserves
  | some last => exact serves_pushSelected hserves h (append_nil _).symm hlast

/-- Resident entries with their verified batches, in whatever order inside. -/
def Verified (xxh3 : Bytes → UInt64) : List ResidentPrepare → List BatchRef → Prop :=
  Forall₂ fun p batch => residentBatch p = some batch ∧
    ∃ raw, IsBatch xxh3 raw batch ∧ raw <+: p.body

theorem pushResidentEntries_everything {entries : List ResidentPrepare} {batches : List BatchRef}
    {ms : List PolledMessage} {count : Nat} (h : Verified xxh3 entries batches)
    (hserves : acc.Serves xxh3 ms) (hroom : ms.length + (batches.flatMap messages).length < count) :
    (pushResidentEntries xxh3 (everything count) entries acc).Serves xxh3
      (ms ++ batches.flatMap messages) := by
  induction h generalizing acc ms with
  | nil => simpa [pushResidentEntries] using hserves
  | @cons p batch entries batches hp _ ih =>
    obtain ⟨hbatch, raw, hraw, tail, htail⟩ := hp
    have hlength : (messages batch).length = batch.frames.length := length_map _
    rw [flatMap_cons, length_append, hlength] at hroom
    have hopen : ¬ (everything count).count ≤ acc.matched := by
      rw [hserves.matched]
      exact not_le.mpr (show ms.length < count by omega)
    have hpush := @serves_everything _ _ raw tail batch ms count hserves hraw (by omega)
    rw [pushResidentEntries, if_neg hopen, tryPushResidentEntry, hbatch, flatMap_cons,
      ← append_assoc]
    refine ih (htail ▸ hpush) ?_
    rw [length_append, hlength]
    omega

/-- **The order inside a batch is needed.** Where a poll for everything returns its messages in offset
order, offsets ascend inside each resident batch. -/
theorem ascending_of_poll_for_everything {entries : List ResidentPrepare} {batches : List BatchRef}
    (h : Verified xxh3 entries batches) {count : Nat} (hcount : (batches.flatMap messages).length < count)
    (hordered : ∀ acc, selectResident xxh3 entries (everything count) = some acc →
      (readMessages xxh3 acc.fragments).Pairwise fun m m' => m.offset < m'.offset) :
    ∀ batch ∈ batches, Ascending batch.header batch.frames := by
  have hserves := pushResidentEntries_everything h serves_nil (by simpa using hcount)
  rw [nil_append] at hserves
  suffices hall : (batches.flatMap messages).Pairwise fun m m' => m.offset < m'.offset by
    intro batch hbatch
    have hordered := (pairwise_flatMap.mp hall).1 batch hbatch
    rwa [messages, pairwise_map] at hordered
  by_cases hempty : (pushResidentEntries xxh3 (everything count) entries {}).fragments.isEmpty = true
  · rw [hserves.eq_nil hempty]
    exact .nil
  · rw [← hserves.readMessages]
    refine hordered _ ?_
    have hne : ¬ (everything count).count = 0 := Nat.ne_zero_of_lt hcount
    rw [selectResident, if_neg hne]
    exact if_neg hempty

/-- A journal with one record at op 1. -/
def journalOf (record : Bytes) : PollJournal where
  entries := SortedMap.empty.upsert 1 fun _ =>
    ⟨{ operation := .sendMessages, op := 1, size := Iggy.headerSize + record.length }, record⟩

def residentOffsets (deltas : List Nat) (query : MessageLookup) : Option (Nat × List Nat) := do
  let (stored, _) ← storedRecord deltas
  let acc ← (journalOf stored).getSync byteSum query
  return (acc.matched, (readMessages byteSum acc.fragments).map PolledMessage.offset)

end Iggy.Poll
