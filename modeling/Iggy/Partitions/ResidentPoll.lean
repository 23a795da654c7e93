import Iggy.Partitions.DiskWalk

/-!
# What a walk over the resident journal serves

The journal holds prepares by op, among them control operations, which a poll passes over. Where the
batches ascend in offset and timestamp along the ops, the offset and the timestamp index list them
in that order, so the op from which a poll starts (`candidate_start_op`) leaves out only batches
with nothing wanted in them, and the walk serves what a walk over all of them would.
-/

namespace Iggy.Poll

open List Lib Batch Prod StoredBatch

variable {xxh3 : Bytes → UInt64} {query : MessageLookup}

/-- `b` lies before `b'`: its offsets and its timestamp are below. -/
def StoredBatch.Before (b b' : StoredBatch xxh3) : Prop :=
  (∀ m ∈ messages b.batch, m.offset < b'.batch.header.baseOffset) ∧
    b.batch.header.baseTimestamp < b'.batch.header.baseTimestamp

/-- The same, but the timestamps may be equal. -/
def StoredBatch.NotAfter (b b' : StoredBatch xxh3) : Prop :=
  (∀ m ∈ messages b.batch, m.offset < b'.batch.header.baseOffset) ∧
    b.batch.header.baseTimestamp ≤ b'.batch.header.baseTimestamp

variable {b : StoredBatch xxh3}

theorem StoredBatch.Before.notAfter {b' : StoredBatch xxh3} (h : b.Before b') : b.NotAfter b' :=
  ⟨h.1, h.2.le⟩

structure CarriesBatch (p : ResidentPrepare) (b : StoredBatch xxh3) : Prop where
  operation : p.header.operation = .sendMessages
  size : p.header.size = Iggy.headerSize + b.raw.length
  body : b.raw <+: p.body

/-- Resident entries with the non-empty batches among them. -/
inductive Carry (xxh3 : Bytes → UInt64) :
    List (Nat × ResidentPrepare) → List (StoredBatch xxh3) → Prop
  | nil : Carry xxh3 [] []
  | skip {op : Nat} {p : ResidentPrepare} {entries : List (Nat × ResidentPrepare)}
      {bs : List (StoredBatch xxh3)}
      (hskip : ∀ batch, residentBatch p = some batch → batch.header.messageCount = 0) :
      Carry xxh3 entries bs → Carry xxh3 ((op, p) :: entries) bs
  | take {op : Nat} {p : ResidentPrepare} {b : StoredBatch xxh3}
      {entries : List (Nat × ResidentPrepare)} {bs : List (StoredBatch xxh3)}
      (hcarries : CarriesBatch p b) (hcount : b.batch.header.messageCount ≠ 0) :
      Carry xxh3 entries bs → Carry xxh3 ((op, p) :: entries) (b :: bs)

/-! ## Serving resident entries -/

variable {p : ResidentPrepare}

theorem CarriesBatch.residentBatch_eq (h : CarriesBatch p b) : residentBatch p = some b.batch := by
  obtain ⟨tail, htail⟩ := h.body
  have hraw := length_raw_pos b
  have hlen : p.length = Iggy.headerSize + (b.raw.length + tail.length) := by
    rw [ResidentPrepare.length, ← htail, length_append]
  have htake : p.body.take (p.header.size - Iggy.headerSize) = b.raw := by
    rw [h.size, Nat.add_sub_cancel_left, ← htail, take_left]
  have hdecode : Header.decode (b.raw.take Batch.headerSize) = .ok b.batch.header :=
    (Header.decode_take hraw).mpr (decodeBatchSliceWith_eq_ok.mp b.isBatch.1).1
  have hshort : ¬ (p.header.size < Iggy.headerSize ∨ p.length < p.header.size) := by
    rw [h.size, hlen]
    omega
  unfold residentBatch decodePrepareSliceTrusted
  rw [if_pos h.operation, if_neg hshort, htake]
  dsimp only
  rw [if_neg (not_lt.mpr hraw), hdecode]
  dsimp only
  rw [if_neg (not_not.mpr b.isBatch.2), ← b.isBatch.blob_eq]

variable {acc : Selection} {ms : List PolledMessage}

theorem serves_tryPush (hserves : acc.Serves xxh3 ms) (h : CarriesBatch p b) :
    (tryPushResidentEntry xxh3 query acc p).Serves xxh3 (served query ms [b]) := by
  obtain ⟨tail, htail⟩ := h.body
  have hpush := @serves_pushBatch _ _ _ query hserves b tail
  unfold tryPushResidentEntry
  rw [h.residentBatch_eq, ← htail]
  simpa [served, messagesOf] using hpush

theorem tryPush_of_skip
    (h : ∀ batch, residentBatch p = some batch → batch.header.messageCount = 0) :
    tryPushResidentEntry xxh3 query acc p = acc := by
  unfold tryPushResidentEntry
  cases hbatch : residentBatch p with
  | none => rfl
  | some batch => simp [pushBatch, selectBatchSlice, h batch hbatch]

variable {entries : List (Nat × ResidentPrepare)} {bs : List (StoredBatch xxh3)}

theorem pushResidentEntries_serves (h : Carry xxh3 entries bs) (hserves : acc.Serves xxh3 ms) :
    (pushResidentEntries xxh3 query (entries.map snd) acc).Serves xxh3 (served query ms bs) := by
  induction h generalizing acc ms with
  | nil => rwa [served_nil]
  | @skip op p entries bs hskip _ ih =>
    rw [map_cons, pushResidentEntries]
    split
    case isTrue hfull => rwa [served_of_full (hserves.matched ▸ hfull)]
    case isFalse => exact ih (by rwa [tryPush_of_skip hskip])
  | @take op p b entries bs hcarries _ _ ih =>
    rw [map_cons, pushResidentEntries]
    split
    case isTrue hfull => rwa [served_of_full (hserves.matched ▸ hfull)]
    case isFalse =>
      have hrest := ih (@serves_tryPush _ query _ _ _ _ hserves hcarries)
      rwa [served_served] at hrest

theorem Selection.Serves.eq_nil (h : acc.Serves xxh3 ms) (hempty : acc.fragments.isEmpty = true) :
    ms = [] := by
  obtain ⟨parts, hparts, hbytes, rfl⟩ := h.encoded
  rw [List.isEmpty_iff.mp hempty, flatMap_nil] at hbytes
  cases parts with
  | nil => rfl
  | cons part parts =>
    have hlen := (hparts part mem_cons_self).headerSize_le
    have hnil : part.1 = [] := (append_eq_nil_iff.mp hbytes.symm).1
    rw [hnil] at hlen
    exact absurd hlen (by decide)

theorem selectResident_serves (h : Carry xxh3 entries bs) (hcount : query.count ≠ 0) :
    (∃ acc, selectResident xxh3 (entries.map snd) query = some acc ∧
      acc.Serves xxh3 (served query [] bs)) ∨
    (selectResident xxh3 (entries.map snd) query = none ∧ served query [] bs = []) := by
  have hserves := @pushResidentEntries_serves _ query _ _ _ _ h serves_nil
  unfold selectResident
  rw [if_neg hcount]
  dsimp only
  split
  case isTrue hempty => exact .inr ⟨rfl, hserves.eq_nil hempty⟩
  case isFalse => exact .inl ⟨_, rfl, hserves⟩

/-! ## The indexes -/

def indexedOf (entries : List (Nat × ResidentPrepare)) : List (Nat × BatchRef) :=
  entries.filterMap fun (op, p) =>
    ((residentBatch p).filter fun batch => batch.header.messageCount ≠ 0).map fun batch =>
      (op, batch)

theorem indexedOf_cons_of_skip {op : Nat}
    (h : ∀ batch, residentBatch p = some batch → batch.header.messageCount = 0) :
    indexedOf ((op, p) :: entries) = indexedOf entries := by
  have hnone : (residentBatch p).filter (fun batch => batch.header.messageCount ≠ 0) = none := by
    cases hbatch : residentBatch p with
    | none => rfl
    | some batch => simp [Option.filter, h batch hbatch]
  rw [indexedOf, filterMap_cons]
  simp only [hnone, Option.map_none]
  rfl

theorem indexedOf_cons_of_carries {op : Nat} (h : CarriesBatch p b)
    (hcount : b.batch.header.messageCount ≠ 0) :
    indexedOf ((op, p) :: entries) = (op, b.batch) :: indexedOf entries := by
  rw [indexedOf, filterMap_cons]
  simp only [h.residentBatch_eq, Option.filter, hcount, ne_eq, not_false_eq_true, decide_true,
    if_true, Option.map_some]
  rfl

theorem Carry.map_indexedOf (h : Carry xxh3 entries bs) :
    (indexedOf entries).map snd = bs.map batch := by
  induction h with
  | nil => rfl
  | @skip op p entries bs hskip _ ih =>
    rw [indexedOf_cons_of_skip hskip]
    exact ih
  | @take op p b entries bs hcarries hcount _ ih =>
    rw [indexedOf_cons_of_carries hcarries hcount, map_cons, map_cons, ih]

theorem Carry.messageCount_ne_zero (h : Carry xxh3 entries bs) :
    ∀ b ∈ bs, b.batch.header.messageCount ≠ 0 := by
  induction h with
  | nil => exact nofun
  | skip _ _ ih => exact ih
  | take _ hcount _ ih => exact forall_mem_cons.mpr ⟨hcount, ih⟩

theorem Carry.append_left {entries' : List (Nat × ResidentPrepare)}
    (h : Carry xxh3 (entries ++ entries') bs) :
    ∃ bs₁ bs₂, bs = bs₁ ++ bs₂ ∧ Carry xxh3 entries bs₁ ∧ Carry xxh3 entries' bs₂ := by
  induction entries generalizing bs with
  | nil => exact ⟨[], bs, rfl, .nil, h⟩
  | cons x entries ih =>
    cases h with
    | skip hskip h =>
      obtain ⟨bs₁, bs₂, rfl, h₁, h₂⟩ := ih h
      exact ⟨bs₁, bs₂, rfl, .skip hskip h₁, h₂⟩
    | take hcarries hcount h =>
      obtain ⟨bs₁, bs₂, rfl, h₁, h₂⟩ := ih h
      exact ⟨_ :: bs₁, bs₂, rfl, .take hcarries hcount h₁, h₂⟩

/-- The order of the indexed entries: ops and offsets ascend, and timestamps do not descend. -/
structure Precedes (x y : Nat × BatchRef) : Prop where
  op : x.1 < y.1
  messages : ∀ m ∈ messages x.2, m.offset < y.2.header.baseOffset
  base : x.2.header.baseOffset < y.2.header.baseOffset
  timestamp : x.2.header.baseTimestamp ≤ y.2.header.baseTimestamp

theorem StoredBatch.NotAfter.base_lt {b' : StoredBatch xxh3} (h : b.NotAfter b')
    (hcount : b.batch.header.messageCount ≠ 0) :
    b.batch.header.baseOffset < b'.batch.header.baseOffset := by
  cases hframes : b.batch.frames with
  | nil => exact absurd (b.isBatch.tiled.1.symm.trans (by rw [hframes]; rfl)) hcount
  | cons f fs =>
    have hf : f ∈ b.batch.frames := hframes ▸ mem_cons_self
    exact Nat.lt_of_le_of_lt (b.based f hf) (h.1 _ (mem_map_of_mem hf))

theorem mem_of_mem_indexedOf {x : Nat × BatchRef} (h : x ∈ indexedOf entries) :
    ∃ p, (x.1, p) ∈ entries := by
  obtain ⟨⟨op, p⟩, hmem, hx⟩ := mem_filterMap.mp h
  obtain ⟨batch, -, rfl⟩ := Option.map_eq_some_iff.mp hx
  exact ⟨p, hmem⟩

theorem Carry.pairwise_indexedOf (h : Carry xxh3 entries bs)
    (hsorted : entries.Pairwise fun x y => x.1 < y.1) (hbs : bs.Pairwise StoredBatch.NotAfter) :
    (indexedOf entries).Pairwise Precedes := by
  induction h with
  | nil => exact List.Pairwise.nil
  | @skip op p entries bs hskip hrest ih =>
    rw [indexedOf_cons_of_skip hskip]
    exact ih (pairwise_cons.mp hsorted).2 hbs
  | @take op p b entries bs hcarries hcount hrest ih =>
    obtain ⟨hop, hsorted⟩ := pairwise_cons.mp hsorted
    obtain ⟨hb, hbs⟩ := pairwise_cons.mp hbs
    rw [indexedOf_cons_of_carries hcarries hcount]
    refine pairwise_cons.mpr ⟨fun y hy => ?_, ih hsorted hbs⟩
    obtain ⟨q, hq⟩ := mem_of_mem_indexedOf hy
    have hbatch : y.2 ∈ bs.map batch :=
      hrest.map_indexedOf ▸ mem_map_of_mem hy
    obtain ⟨b', hb', hsame⟩ := mem_map.mp hbatch
    have hbefore := hb b' hb'
    exact ⟨hop _ hq, hsame ▸ hbefore.1, hsame ▸ hbefore.base_lt hcount, hsame ▸ hbefore.2⟩

section Journal

variable {j : PollJournal} {I : List (Nat × BatchRef)}

theorem entries_offsetToOp (h : j.indexed.Pairwise Precedes) :
    j.offsetToOp.entries = j.indexed.map fun x => (x.2.header.baseOffset, x.1) :=
  SortedMap.entries_foldl_upsert (h.imp Precedes.base) (fun _ hx => nomatch hx)

theorem entries_timestampToOp (h : j.indexed.Pairwise Precedes) :
    j.timestampToOp.entries = j.indexed.map fun x => (toLex (x.2.header.baseTimestamp, x.1), x.1) :=
  SortedMap.entries_foldl_upsert
    (h.imp fun hxy => Prod.Lex.toLex_lt_toLex.mpr
      (hxy.timestamp.lt_or_eq.imp_right fun heq => ⟨heq, hxy.op⟩)) (fun _ hx => nomatch hx)

theorem pairwise_eq_or_rel {α : Type} {R : α → α → Prop} {l : List α} (h : l.Pairwise R) {x y : α}
    (hx : x ∈ l) (hy : y ∈ l) : x = y ∨ R x y ∨ R y x := by
  induction h with
  | nil => exact nomatch hx
  | @cons z l hz _ ih =>
    obtain rfl | hxl := mem_cons.mp hx
    · obtain rfl | hyl := mem_cons.mp hy
      · exact .inl rfl
      · exact .inr (.inl (hz y hyl))
    · obtain rfl | hyl := mem_cons.mp hy
      · exact .inr (.inr (hz x hxl))
      · exact ih hxl hyl

variable {x : Nat × BatchRef}

theorem precedes_of_op_lt (h : I.Pairwise Precedes) {y : Nat × BatchRef} (hx : x ∈ I) (hy : y ∈ I)
    (hlt : x.1 < y.1) : Precedes x y := by
  obtain rfl | hxy | hyx := pairwise_eq_or_rel h hx hy
  · exact absurd hlt (lt_irrefl _)
  · exact hxy
  · exact absurd hlt (Nat.lt_asymm hyx.op)

theorem not_op_lt_of_find (h : I.Pairwise Precedes) {p : Nat × BatchRef → Bool} {y : Nat × BatchRef}
    (hfind : I.find? p = some y) (hx : x ∈ I) (hp : p x = true) : ¬ x.1 < y.1 := by
  obtain ⟨-, before, after, rfl, hbefore⟩ := find?_eq_some_iff_append.mp hfind
  rcases mem_append.mp hx with hx | hx
  · exact absurd hp (by simpa using hbefore x hx)
  · obtain ⟨hafter, -⟩ := pairwise_cons.mp (pairwise_append.mp h).2.1
    rcases mem_cons.mp hx with rfl | hx
    · exact lt_irrefl _
    · exact Nat.lt_asymm (hafter x hx).op

section

variable (h : j.indexed.Pairwise Precedes)
include h

theorem candidateStartOp_offset {start count ceiling : Nat} :
    j.candidateStartOp (.offset start count ceiling) =
      ((j.indexed.filter fun x => x.2.header.baseOffset ≤ start).getLast?.or
        (j.indexed.find? fun x => start ≤ x.2.header.baseOffset)).map fst := by
  simp only [PollJournal.candidateStartOp, entries_offsetToOp h, filter_map,
    getLast?_map, find?_map, ← Option.map_or, Option.map_map]
  rfl

theorem candidateStartOp_timestamp {since count ceiling : Nat} :
    j.candidateStartOp (.timestamp since count ceiling) =
      (((j.indexed.find? fun x => since ≤ x.2.header.baseTimestamp).filter fun x =>
          x.2.header.baseTimestamp = since).or
        ((j.indexed.filter fun x => x.2.header.baseTimestamp < since).getLast?.or
          (j.indexed.find? fun x => since ≤ x.2.header.baseTimestamp))).map fst := by
  simp only [PollJournal.candidateStartOp, entries_timestampToOp h, filter_map,
    getLast?_map, find?_map, ← Option.map_or, Option.map_map, Option.filter_map]
  split
  · rename_i found hfound
    obtain ⟨x, hx, rfl⟩ := Option.map_eq_some_iff.mp hfound
    have hexact : ((j.indexed.find? fun x => since ≤ x.2.header.baseTimestamp).filter fun x =>
      x.2.header.baseTimestamp = since) = some x := hx
    rw [hexact]
    rfl
  · rename_i hfound
    have hnone : ((j.indexed.find? fun x => since ≤ x.2.header.baseTimestamp).filter fun x =>
      x.2.header.baseTimestamp = since) = none := Option.map_eq_none_iff.mp hfound
    rw [hnone]
    rfl

/-- **The start of a resident poll.** Nothing before it is wanted. -/
theorem not_wanted_of_op_lt {op : Nat} (hstart : j.candidateStartOp query = some op)
    (hx : x ∈ j.indexed) (hlt : x.1 < op) {m : PolledMessage} (hm : m ∈ messages x.2) :
    ¬ wanted query m = true := by
  have hstamp : m.timestamp = x.2.header.baseTimestamp := by
    obtain ⟨f, -, rfl⟩ := mem_map.mp hm
    rfl
  cases query with
  | offset start count ceiling =>
    rw [candidateStartOp_offset h, Option.map_eq_some_iff] at hstart
    obtain ⟨y, hy, rfl⟩ := hstart
    suffices m.offset < start by simp [wanted, MessageLookup.selects]; omega
    obtain hy | ⟨hnone, hy⟩ := Option.or_eq_some_iff.mp hy
    · obtain ⟨hmem, hle⟩ := mem_filter.mp (mem_of_getLast? hy)
      rw [decide_eq_true_eq] at hle
      exact Nat.lt_of_lt_of_le ((precedes_of_op_lt h hx hmem hlt).messages m hm) hle
    · have habove := filter_eq_nil_iff.mp (getLast?_eq_none_iff.mp hnone)
      refine absurd hlt (not_op_lt_of_find h hy hx ?_)
      have hx := habove x hx
      rw [decide_eq_true_eq] at hx ⊢
      omega
  | timestamp since count ceiling =>
    rw [candidateStartOp_timestamp h, Option.map_eq_some_iff] at hstart
    obtain ⟨y, hy, rfl⟩ := hstart
    suffices m.timestamp < since by simp [wanted, MessageLookup.selects]; omega
    rw [hstamp]
    obtain hy | ⟨-, hy⟩ := Option.or_eq_some_iff.mp hy
    · obtain ⟨hfind, -⟩ := Option.filter_eq_some_iff.mp hy
      -- the first entry at or after `since` has no such entry before it
      by_contra hnot
      exact not_op_lt_of_find h hfind hx (decide_eq_true (not_lt.mp hnot)) hlt
    obtain hy | ⟨hnone, hy⟩ := Option.or_eq_some_iff.mp hy
    · obtain ⟨hmem, hbelow⟩ := mem_filter.mp (mem_of_getLast? hy)
      rw [decide_eq_true_eq] at hbelow
      exact ((precedes_of_op_lt h hx hmem hlt).timestamp).trans_lt hbelow
    · have habove := filter_eq_nil_iff.mp (getLast?_eq_none_iff.mp hnone)
      refine absurd hlt (not_op_lt_of_find h hy hx ?_)
      have hx := habove x hx
      rw [decide_eq_true_eq] at hx ⊢
      omega

theorem indexed_eq_nil_of_candidate (hnone : j.candidateStartOp query = none) : j.indexed = [] := by
  rw [eq_nil_iff_forall_not_mem]
  intro x hx
  cases query with
  | offset start count ceiling =>
    rw [candidateStartOp_offset h, Option.map_eq_none_iff, Option.or_eq_none_iff] at hnone
    have hbelow := filter_eq_nil_iff.mp (getLast?_eq_none_iff.mp hnone.1) x hx
    have habove := find?_eq_none.mp hnone.2 x hx
    rw [decide_eq_true_eq] at hbelow habove
    omega
  | timestamp since count ceiling =>
    rw [candidateStartOp_timestamp h, Option.map_eq_none_iff, Option.or_eq_none_iff,
      Option.or_eq_none_iff] at hnone
    have hbelow := filter_eq_nil_iff.mp (getLast?_eq_none_iff.mp hnone.2.1) x hx
    have habove := find?_eq_none.mp hnone.2.2 x hx
    rw [decide_eq_true_eq] at hbelow habove
    omega

end

end Journal

/-! ## Polling the journal -/

section

variable {j : PollJournal} {bs : List (StoredBatch xxh3)}

theorem residentMessageEntries_eq (hcarry : Carry xxh3 j.entries.entries bs)
    (hindexed : j.indexed.Pairwise Precedes) :
    ∃ entries, Carry xxh3 entries bs ∧ j.residentMessageEntries = entries.map snd := by
  have hlookup : j.residentMessageEntries =
      (indexedOf j.entries.entries).filterMap fun x => j.entries.get? x.1 := by
    rw [PollJournal.residentMessageEntries, entries_offsetToOp hindexed, filterMap_map]
    rfl
  rw [hlookup]
  suffices ∀ entries, (∀ x ∈ entries, j.entries.get? x.1 = some x.2) → ∀ bs, Carry xxh3 entries bs →
      ∃ entries', Carry xxh3 entries' bs ∧
        (indexedOf entries).filterMap (fun x => j.entries.get? x.1) = entries'.map snd from
    this _ (fun x hx => SortedMap.mem_entries.mp hx) bs hcarry
  intro entries hget bs hcarry
  induction hcarry with
  | nil => exact ⟨[], .nil, rfl⟩
  | @skip op p entries bs hskip _ ih =>
    rw [indexedOf_cons_of_skip hskip]
    exact ih fun x hx => hget x (mem_cons_of_mem _ hx)
  | @take op p b entries bs hcarries hcount _ ih =>
    obtain ⟨entries', hcarry', heq⟩ := ih fun x hx => hget x (mem_cons_of_mem _ hx)
    refine ⟨(op, p) :: entries', .take hcarries hcount hcarry', ?_⟩
    rw [indexedOf_cons_of_carries hcarries hcount, filterMap_cons, hget _ mem_cons_self, heq]
    rfl

theorem filter_append_filter {α : Type} {l : List (Nat × α)} (op : Nat)
    (h : l.Pairwise fun x y => x.1 < y.1) :
    l = (l.filter fun x => x.1 < op) ++ l.filter fun x => op ≤ x.1 := by
  induction l with
  | nil => rfl
  | cons x l ih =>
    obtain ⟨hx, hl⟩ := pairwise_cons.mp h
    by_cases hlt : x.1 < op
    · rw [filter_cons_of_pos (by simpa using hlt), filter_cons_of_neg (by simpa using hlt),
        cons_append, ← ih hl]
    · have hall : l.filter (fun y => op ≤ y.1) = l :=
        filter_eq_self.mpr fun y hy => by
          have := hx y hy
          rw [decide_eq_true_eq]
          omega
      have hnone : l.filter (fun y => y.1 < op) = [] :=
        filter_eq_nil_iff.mpr fun y hy => by
          have := hx y hy
          rw [decide_eq_true_eq]
          omega
      rw [filter_cons_of_neg (by simpa using hlt), hnone, nil_append,
        filter_cons_of_pos (by simpa using hlt), hall]

/-- **A resident poll** serves what a walk over every resident batch serves. -/
theorem getSync_serves (hcarry : Carry xxh3 j.entries.entries bs)
    (hindexed : j.indexed.Pairwise Precedes) :
    (∃ acc, j.getSync xxh3 query = some acc ∧ acc.Serves xxh3 (served query [] bs)) ∨
    (j.getSync xxh3 query = none ∧ served query [] bs = []) := by
  unfold PollJournal.getSync
  cases hstart : j.candidateStartOp query with
  | none =>
    have hbs : bs.map batch = [] := by
      rw [← hcarry.map_indexedOf]
      exact congrArg _ (indexed_eq_nil_of_candidate hindexed hstart)
    rw [map_eq_nil_iff.mp hbs, served_nil]
    exact .inr ⟨rfl, rfl⟩
  | some op =>
    rw [filter_append_filter op j.entries.sorted] at hcarry
    obtain ⟨bs₁, bs₂, rfl, h₁, h₂⟩ := hcarry.append_left
    -- no batch before the start has a wanted message
    have hskip : ∀ m ∈ messagesOf bs₁, ¬ wanted query m = true := by
      intro m hm
      obtain ⟨b, hb, hmb⟩ := mem_flatMap.mp hm
      have hbatch : b.batch ∈ (indexedOf (j.entries.entries.filter fun x => x.1 < op)).map snd :=
        h₁.map_indexedOf ▸ mem_map_of_mem hb
      obtain ⟨x, hx, hxb⟩ := mem_map.mp hbatch
      obtain ⟨p, hp⟩ := mem_of_mem_indexedOf hx
      have hlt : x.1 < op := by simpa using (mem_filter.mp hp).2
      have hmem : x ∈ j.indexed :=
        (filter_sublist.filterMap _).subset hx
      exact not_wanted_of_op_lt hindexed hstart hmem hlt (hxb ▸ hmb)
    rw [served_append_left hskip]
    have hserves := @pushResidentEntries_serves _ query _ _ _ _ h₂ serves_nil
    simp only [Option.bind_eq_bind, Option.bind_some]
    split
    case isTrue hempty => exact .inr ⟨rfl, hserves.eq_nil hempty⟩
    case isFalse => exact .inl ⟨_, rfl, hserves⟩

end

/-- The resident journal holds the non-empty batches `bs`, in order. -/
structure PollJournal.Holds (j : PollJournal) (bs : List (StoredBatch xxh3)) : Prop where
  carry : Carry xxh3 j.entries.entries bs
  ordered : bs.Pairwise StoredBatch.Before

namespace PollJournal.Holds

variable {j : PollJournal} {bs : List (StoredBatch xxh3)}

theorem indexed (h : j.Holds bs) : j.indexed.Pairwise Precedes :=
  h.carry.pairwise_indexedOf j.entries.sorted (h.ordered.imp StoredBatch.Before.notAfter)

theorem map_indexed (h : j.Holds bs) : j.indexed.map snd = bs.map batch :=
  h.carry.map_indexedOf

theorem oldestResidentOffset_eq (h : j.Holds bs) :
    j.oldestResidentOffset = bs.head?.map fun b => b.batch.header.baseOffset := by
  have hhead : j.indexed.head?.map snd = bs.head?.map batch := by
    rw [← head?_map, ← head?_map, h.map_indexed]
  rw [oldestResidentOffset, entries_offsetToOp h.indexed, head?_map, Option.map_map]
  calc j.indexed.head?.map (fun x => x.2.header.baseOffset)
      = (j.indexed.head?.map snd).map fun batch => batch.header.baseOffset := by
        rw [Option.map_map]; rfl
    _ = bs.head?.map fun b => b.batch.header.baseOffset := by
        rw [hhead, Option.map_map]; rfl

end PollJournal.Holds

end Iggy.Poll
