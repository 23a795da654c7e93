import Iggy.Partitions.SegmentRecovery

/-!
# The chain a recovery walk proves

What a walk over a segment's log leaves behind is a chain of verified batches (`Chain`). A walk over
the log cut behind that chain goes to the end, from byte 0 (`recoverByWalkingLog_kept`) and from an
entry of the index (`walkChainFromAnchor_kept`). The index that the walk from byte 0 rebuilds names
batches of the chain (`Rebuilt`).
-/

namespace Iggy.SegmentRecovery

open List Lib Batch AnchoredWalk Option
open Poll (IggyIndex iggyIndexSize saturate wordMax)

variable {xxh3 : Bytes → UInt64} {partitionId : Nat} {log : Bytes}
  {startOffset position expected m : Nat} {header : Header}

/-! ## The log cut short -/

theorem sliceAt_take (hm : m ≤ log.length) (position len : Nat) :
    sliceAt (log.take m) position len =
      if position + len ≤ m then sliceAt log position len else none := by
  unfold sliceAt
  rw [length_take, min_eq_left hm]
  split
  case isTrue hle =>
    rw [if_pos (hle.trans hm), drop_take, take_take, min_eq_left (by omega)]
  case isFalse => rfl

theorem peekHeader_take (hm : m ≤ log.length) (position : Nat) :
    peekHeader (log.take m) position =
      if position + headerSize ≤ m then peekHeader log position else none := by
  unfold peekHeader
  rw [sliceAt_take hm]
  split <;> rfl

theorem headerSize_le_of_peekHeader (h : peekHeader log position = some header) :
    headerSize ≤ header.batchLength := by
  obtain ⟨bytes, -, hdecode⟩ := bind_eq_some_iff.mp h
  have hok := toOption_eq_some.mp (filter_eq_some_iff.mp hdecode).1
  exact (Header.decode_eq_ok.mp hok).2.1

theorem word_of_peekHeader (h : peekHeader log position = some header) :
    header.baseOffset < 2 ^ 64 ∧ header.baseTimestamp < 2 ^ 64 := by
  obtain ⟨bytes, -, hdecode⟩ := bind_eq_some_iff.mp h
  have hfits := Header.fits_iff.mp (Header.fits_of_decode
    (toOption_eq_some.mp (filter_eq_some_iff.mp hdecode).1))
  exact ⟨hfits.2.1, hfits.2.2.1⟩

theorem peekHeader_take_of_le (hm : m ≤ log.length) (h : peekHeader log position = some header)
    (hle : position + header.batchLength ≤ m) : peekHeader (log.take m) position = some header := by
  have hsize := headerSize_le_of_peekHeader h
  rw [peekHeader_take hm, if_pos (by omega), h]

theorem provenBatchAt_eq_some : provenBatchAt xxh3 log position = some header ↔
    peekHeader log position = some header ∧ position + header.batchLength ≤ log.length ∧
      batchVerifies xxh3 log position header.batchLength = true := by
  unfold provenBatchAt
  rw [filter_eq_some_iff, decide_eq_true_iff]

/-- The batches of the cut log are those of the log that end inside it. -/
theorem provenBatchAt_take (hm : m ≤ log.length) :
    provenBatchAt xxh3 (log.take m) position = some header ↔
      provenBatchAt xxh3 log position = some header ∧ position + header.batchLength ≤ m := by
  rw [provenBatchAt_eq_some, provenBatchAt_eq_some, length_take, min_eq_left hm, batchVerifies,
    sliceAt_take hm]
  constructor
  · rintro ⟨hpeek, hle, hverifies⟩
    rw [if_pos hle] at hverifies
    have hlog : peekHeader log position = some header := by
      rw [peekHeader_take hm] at hpeek
      split_ifs at hpeek
      exact hpeek
    exact ⟨⟨hlog, hle.trans hm, hverifies⟩, hle⟩
  · rintro ⟨⟨hpeek, -, hverifies⟩, hle⟩
    rw [if_pos hle]
    exact ⟨peekHeader_take_of_le hm hpeek hle, hle, hverifies⟩

/-! ## Chains of verified batches -/

/-- The batches that the walks accept one after the other, from `position` on where `expected` is
the next offset. -/
def Chain (xxh3 : Bytes → UInt64) (partitionId : Nat) (log : Bytes) :
    (position expected : Nat) → List Header → Prop
  | _, _, [] => True
  | position, expected, header :: rest =>
    provenBatchAt xxh3 log position = some header ∧ header.partitionId = partitionId ∧
      header.baseOffset = expected ∧
      Chain xxh3 partitionId log (position + header.batchLength) (expectedAfter expected header) rest

def chainSize (headers : List Header) : Nat := (headers.map Header.batchLength).sum

@[simp] theorem chainSize_nil : chainSize [] = 0 := rfl

@[simp] theorem chainSize_cons (header : Header) (rest : List Header) :
    chainSize (header :: rest) = header.batchLength + chainSize rest := by
  rw [chainSize, map_cons, sum_cons, chainSize]

@[simp] theorem chainSize_append (hs hs' : List Header) :
    chainSize (hs ++ hs') = chainSize hs + chainSize hs' := by
  rw [chainSize, map_append, sum_append, chainSize, chainSize]

variable {headers : List Header}

namespace Chain

theorem end_le (h : Chain xxh3 partitionId log position expected headers)
    (hpos : position ≤ log.length) : position + chainSize headers ≤ log.length := by
  induction headers generalizing position expected with
  | nil => exact hpos
  | cons header rest ih =>
    obtain ⟨hproven, -, -, hrest⟩ := h
    have hend := ih hrest (provenBatchAt_eq_some.mp hproven).2.1
    rw [chainSize_cons]
    omega

theorem size_le (h : Chain xxh3 partitionId log 0 startOffset headers) :
    chainSize headers ≤ log.length := by
  have hend := h.end_le (Nat.zero_le _)
  omega

section

variable (h : Chain xxh3 partitionId log position expected headers)
include h

theorem length_le_chainSize : headers.length ≤ chainSize headers := by
  induction headers generalizing position expected with
  | nil => exact Nat.le_refl 0
  | cons header rest ih =>
    obtain ⟨hproven, -, -, hrest⟩ := h
    have hsize : 256 ≤ header.batchLength :=
      headerSize_le_of_peekHeader (provenBatchAt_eq_some.mp hproven).1
    have hlen := ih hrest
    rw [chainSize_cons, length_cons]
    omega

theorem take (hm : m ≤ log.length) (hle : position + chainSize headers ≤ m) :
    Chain xxh3 partitionId (log.take m) position expected headers := by
  induction headers generalizing position expected with
  | nil => trivial
  | cons header rest ih =>
    obtain ⟨hproven, hpartition, hoffset, hrest⟩ := h
    rw [chainSize_cons] at hle
    exact ⟨(provenBatchAt_take hm).mpr ⟨hproven, by omega⟩, hpartition, hoffset,
      ih hrest (by omega)⟩

end

theorem left {before rest : List Header}
    (h : Chain xxh3 partitionId log position expected (before ++ rest)) :
    Chain xxh3 partitionId log position expected before := by
  induction before generalizing position expected with
  | nil => trivial
  | cons first before ih =>
    obtain ⟨hproven, hpartition, hoffset, hrest⟩ := h
    exact ⟨hproven, hpartition, hoffset, ih hrest⟩

theorem drop {before rest : List Header}
    (h : Chain xxh3 partitionId log position expected (before ++ header :: rest)) :
    Chain xxh3 partitionId log (position + chainSize before) header.baseOffset (header :: rest) := by
  induction before generalizing position expected with
  | nil =>
    obtain ⟨hproven, hpartition, hoffset, hrest⟩ := h
    exact ⟨hproven, hpartition, rfl, hoffset ▸ hrest⟩
  | cons first before ih =>
    have hrest := ih h.2.2.2
    rwa [Nat.add_assoc, ← chainSize_cons] at hrest

end Chain

/-! ## The walks -/

namespace Walker

variable {σ : Type} {walker : Walker σ} {s s' : σ} {fuel fuel' : Nat}

theorem position_foldl (headers : List Header) (s : σ) :
    walker.position (headers.foldl walker.accept s) = walker.position s + chainSize headers := by
  induction headers generalizing s with
  | nil => rfl
  | cons header rest ih =>
    rw [foldl_cons, ih, walker.position_accept, chainSize_cons, Nat.add_assoc]

theorem exists_chain (h : walker.walk xxh3 partitionId log startOffset fuel s = .ok s') :
    ∃ headers, Chain xxh3 partitionId log (walker.position s) (walker.expected s) headers ∧
      s' = headers.foldl walker.accept s := by
  induction fuel generalizing s with
  | zero => exact ⟨[], trivial, (Except.ok.inj h).symm⟩
  | succ fuel ih =>
    unfold walk at h
    split at h
    · split at h
      · exact ⟨[], trivial, (Except.ok.inj h).symm⟩
      · rename_i header hproven
        split at h
        · cases h
        rename_i hpartition
        split at h
        · exact ⟨[], trivial, walker.mismatch_eq_ok h⟩
        · rename_i hoffset
          obtain ⟨rest, hchain, rfl⟩ := ih h
          rw [walker.position_accept, walker.expected_accept] at hchain
          exact ⟨header :: rest, ⟨hproven, not_not.mp hpartition, not_not.mp hoffset, hchain⟩, rfl⟩
    · exact ⟨[], trivial, (Except.ok.inj h).symm⟩

theorem walk_chain
    (hchain : Chain xxh3 partitionId log (walker.position s) (walker.expected s) headers)
    (hend : walker.position s + chainSize headers = log.length) (hfuel : headers.length ≤ fuel) :
    walker.walk xxh3 partitionId log startOffset fuel s = .ok (headers.foldl walker.accept s) := by
  induction headers generalizing s fuel with
  | nil =>
    cases fuel with
    | zero => rfl
    | succ fuel =>
      unfold walk
      exact if_neg (by rw [chainSize_nil] at hend; omega)
  | cons header rest ih =>
    obtain ⟨hproven, hpartition, hoffset, hrest⟩ := hchain
    rw [length_cons] at hfuel
    obtain ⟨fuel, rfl⟩ := Nat.exists_eq_add_one_of_ne_zero (show fuel ≠ 0 by omega)
    have hrestFuel : rest.length ≤ fuel := by omega
    have hsize : 256 ≤ header.batchLength :=
      headerSize_le_of_peekHeader (provenBatchAt_eq_some.mp hproven).1
    rw [chainSize_cons] at hend
    rw [← walker.position_accept, ← walker.expected_accept] at hrest
    have hnext := ih hrest (by rw [walker.position_accept]; omega) hrestFuel
    unfold walk
    rw [if_pos (by omega), hproven]
    dsimp only
    rw [if_neg (not_not.mpr hpartition), if_neg (not_not.mpr hoffset), hnext, foldl_cons]

/-- It only stops earlier. -/
theorem exists_walk_take (h : walker.walk xxh3 partitionId log startOffset fuel s = .ok s')
    (hm : m ≤ log.length) (hfuel : fuel' ≤ fuel) :
    ∃ s'', walker.walk xxh3 partitionId (log.take m) startOffset fuel' s = .ok s'' := by
  induction fuel' generalizing s fuel with
  | zero => exact ⟨s, rfl⟩
  | succ fuel' ih =>
    obtain ⟨fuel, rfl⟩ := Nat.exists_eq_add_one_of_ne_zero (show fuel ≠ 0 by omega)
    unfold walk at h ⊢
    by_cases hpos : walker.position s < (log.take m).length
    · rw [if_pos hpos]
      rw [if_pos (hpos.trans_le (length_take_le' ..))] at h
      cases hcut : provenBatchAt xxh3 (log.take m) (walker.position s) with
      | none => exact ⟨s, rfl⟩
      | some header =>
        rw [((provenBatchAt_take hm).mp hcut).1] at h
        dsimp only at h ⊢
        split at h
        · cases h
        rename_i hpartition
        rw [if_neg hpartition]
        split at h <;> rename_i hoffset
        · rw [if_pos hoffset]
          exact ⟨s', h⟩
        · rw [if_neg hoffset]
          exact ih h (by omega)
    · rw [if_neg hpos]
      exact ⟨s, rfl⟩

end Walker

/-! ## The walk from byte 0 -/

/-- Where the walk from byte 0 stands behind a chain. -/
def walked (startOffset : Nat) (headers : List Header) : LogWalk :=
  headers.foldl LogWalk.accept (.start startOffset)

theorem position_walked : (walked startOffset headers).position = chainSize headers := by
  have h := (LogWalk.walker startOffset).position_foldl headers (.start startOffset)
  exact h.trans (Nat.zero_add _)

variable {bounds : Option WalkedBounds} {budget after : ProbeBudget}

theorem exists_chain_of_recoverByWalkingLog
    (h : recoverByWalkingLog xxh3 partitionId log startOffset budget = .ok (bounds, after)) :
    ∃ headers, Chain xxh3 partitionId log 0 startOffset headers ∧
      bounds = (walked startOffset headers).bounds := by
  unfold recoverByWalkingLog at h
  simp only [bind_eq_ok, Except.ok.injEq, Prod.mk.injEq] at h
  obtain ⟨w, hwalk, _, -, hbounds, -⟩ := h
  obtain ⟨headers, hchain, rfl⟩ := Walker.exists_chain hwalk
  exact ⟨headers, hchain, hbounds.symm⟩

/-- It gives the chain's bounds, and leaves nothing to probe. -/
theorem recoverByWalkingLog_kept (hchain : Chain xxh3 partitionId log 0 startOffset headers)
    (budget : ProbeBudget) :
    recoverByWalkingLog xxh3 partitionId (log.take (chainSize headers)) startOffset budget =
      .ok ((walked startOffset headers).bounds, budget) := by
  have hsize := hchain.size_le
  have hlength : (log.take (chainSize headers)).length = chainSize headers := by
    rw [length_take, min_eq_left hsize]
  have hkept := hchain.take hsize (Nat.zero_add _).le
  have hwalk : (LogWalk.walker startOffset).walk xxh3 partitionId (log.take (chainSize headers))
      startOffset (log.take (chainSize headers)).length (.start startOffset) =
        .ok (walked startOffset headers) :=
    Walker.walk_chain hkept ((Nat.zero_add _).trans hlength.symm)
      (hchain.length_le_chainSize.trans hlength.ge)
  unfold recoverByWalkingLog
  rw [hwalk]
  have hprobe : refuseIfSurvivorPastDamage xxh3 (log.take (chainSize headers))
      (walked startOffset headers).position
      ((walked startOffset headers).startTimestamp.map fun _ => (walked startOffset headers).endOffset)
      startOffset budget = .ok budget :=
    if_pos (by rw [position_walked, hlength])
  exact congrArg (· >>= fun budget => Except.ok ((walked startOffset headers).bounds, budget)) hprobe

/-! ## The rebuilt index -/

/-- The entry that a batch behind `before` gets. -/
def entryOf (before : List Header) (header : Header) : IggyIndex :=
  ⟨header.baseOffset, header.baseTimestamp, chainSize before⟩

/-- What the walk from byte 0 has put into the index behind `headers`. -/
structure Rebuilt (headers : List Header) (w : LogWalk) (entries : List IggyIndex) : Prop where
  position : w.position = chainSize headers
  bytes : w.rebuiltIndex = entries.flatMap entryBytes
  last : w.lastIndexedPosition = none ↔ entries = []
  below : ∀ e ∈ entries, ∀ p, w.lastIndexedPosition = some p → e.position ≤ p
  named : ∀ e ∈ entries, ∃ before header rest, headers = before ++ header :: rest ∧
    0 < header.messageCount ∧ e = entryOf before header
  empty : entries = [] → w.startTimestamp = none ∧ ∀ h ∈ headers, h.messageCount = 0
  first : ∀ e es, entries = e :: es → w.startTimestamp = some e.timestamp ∧
    ∃ before rest, headers = before ++ rest ∧ (∀ h ∈ before, h.messageCount = 0) ∧
      chainSize before = e.position
  positions : entries.Pairwise fun a b => a.position < b.position
  expected : entries ≠ [] → w.expectedOffset = saturate (w.endOffset + 1) ∧ w.endOffset ≤ wordMax
  offsets_le : ∀ e ∈ entries, e.offset ≤ w.endOffset
  offsets : w.endOffset < wordMax → entries.Pairwise fun a b => a.offset < b.offset

namespace Rebuilt

variable {w : LogWalk} {entries : List IggyIndex}

theorem start (startOffset : Nat) : Rebuilt [] (.start startOffset) [] where
  position := rfl
  bytes := rfl
  last := ⟨fun _ => rfl, fun _ => rfl⟩
  below _ h := absurd h not_mem_nil
  named _ h := absurd h not_mem_nil
  empty _ := ⟨rfl, nofun⟩
  first _ _ h := absurd h.symm (cons_ne_nil _ _)
  positions := .nil
  expected h := absurd rfl h
  offsets_le _ h := absurd h not_mem_nil
  offsets _ := .nil

section

variable (h : Rebuilt headers w entries)
include h

theorem named_append (header : Header) (e : IggyIndex) (he : e ∈ entries) :
    ∃ before own rest, headers ++ [header] = before ++ own :: rest ∧
      0 < own.messageCount ∧ e = entryOf before own := by
  obtain ⟨before, own, rest, rfl, hfull, rfl⟩ := h.named e he
  exact ⟨before, own, rest ++ [header], by rw [append_assoc, cons_append], hfull, rfl⟩

theorem first_append (header : Header) (e : IggyIndex) (es : List IggyIndex)
    (he : entries = e :: es) : w.startTimestamp = some e.timestamp ∧
      ∃ before rest, headers ++ [header] = before ++ rest ∧
        (∀ h ∈ before, h.messageCount = 0) ∧ chainSize before = e.position := by
  obtain ⟨hstart, before, rest, rfl, hempty, hsize⟩ := h.first e es he
  exact ⟨hstart, before, rest ++ [header], append_assoc .., hempty, hsize⟩

theorem accept_empty (hcount : ¬ 0 < header.messageCount) :
    Rebuilt (headers ++ [header]) (w.accept header) entries := by
  have haccept : w.accept header = { w with position := w.position + header.batchLength } :=
    if_neg hcount
  rw [haccept]
  refine ⟨?_, h.bytes, h.last, h.below, h.named_append header, fun hnil => ?_, h.first_append header,
    h.positions, h.expected, h.offsets_le, h.offsets⟩
  · rw [chainSize_append, ← h.position, chainSize_cons, chainSize_nil, Nat.add_zero]
  · exact ⟨(h.empty hnil).1, forall_mem_append.mpr
      ⟨(h.empty hnil).2, forall_mem_singleton.mpr (Nat.eq_zero_of_not_pos hcount)⟩⟩

theorem lt_baseOffset (hoffset : header.baseOffset = w.expectedOffset)
    (hend : saturate (header.baseOffset + (header.messageCount - 1)) < wordMax) {e : IggyIndex}
    (he : e ∈ entries) : e.offset < header.baseOffset ∧ w.endOffset < wordMax := by
  have hle := h.offsets_le e he
  have hexpected := (h.expected (ne_nil_of_mem he)).1
  unfold saturate at hend hexpected
  omega

/-- A batch with messages gets an entry where the last one is a stride behind. -/
theorem accept_full (hcount : 0 < header.messageCount)
    (hoffset : header.baseOffset = w.expectedOffset) (hbase : header.baseOffset ≤ wordMax) :
    ∃ entries', Rebuilt (headers ++ [header]) (w.accept header) entries' := by
  have hposition : w.position + header.batchLength = chainSize (headers ++ [header]) := by
    rw [chainSize_append, ← h.position, chainSize_cons, chainSize_nil, Nat.add_zero]
  unfold LogWalk.accept
  rw [if_pos hcount]
  generalize hlast : saturate (header.baseOffset + (header.messageCount - 1)) = last
  have hendOffset : header.baseOffset ≤ last ∧ last ≤ wordMax := by
    unfold saturate at hlast
    omega
  have hbelow : ∀ e ∈ entries, e.offset ≤ last := fun e he => by
    obtain ⟨hexpected, hle⟩ := h.expected (ne_nil_of_mem he)
    have hoffset_le := h.offsets_le e he
    unfold saturate at hexpected
    omega
  have hpairwise : last < wordMax → entries.Pairwise fun a b => a.offset < b.offset := fun hend => by
    cases hentries : entries with
    | nil => exact .nil
    | cons e es =>
      rw [← hentries]
      exact h.offsets (h.lt_baseOffset hoffset (hlast ▸ hend) (hentries ▸ mem_cons_self)).2
  cases hindexes : w.indexes with
  | false =>
    obtain ⟨p, hp⟩ : ∃ p, w.lastIndexedPosition = some p := by
      refine ne_none_iff_exists'.mp fun hnone => ?_
      rw [LogWalk.indexes, hnone] at hindexes
      cases hindexes
    have hne : entries ≠ [] := fun hnil => by
      rw [h.last.mpr hnil] at hp
      cases hp
    refine ⟨entries, hposition, h.bytes, h.last, h.below, h.named_append header,
      fun hnil => absurd hnil hne, fun e es he => ?_, h.positions,
      fun _ => ⟨rfl, hendOffset.2⟩, hbelow, hpairwise⟩
    have hfirst := h.first_append header e es he
    exact ⟨by rw [hfirst.1, getD_some], hfirst.2⟩
  | true =>
    have hbehind : ∀ e ∈ entries, e.position < w.position := fun e he => by
      obtain ⟨p, hp⟩ := ne_none_iff_exists'.mp fun hnone =>
        ne_nil_of_mem he (h.last.mp hnone)
      have hle := h.below e he p hp
      rw [LogWalk.indexes, hp, all_some, decide_eq_true_iff, rebuiltIndexStrideBytes]
        at hindexes
      omega
    refine ⟨entries ++ [⟨header.baseOffset, header.baseTimestamp, w.position⟩], hposition, ?_, ?_, ?_,
      ?_, ?_, ?_, ?_, fun _ => ⟨rfl, hendOffset.2⟩, ?_, ?_⟩
    · simp only [if_true, flatMap_append, flatMap_singleton, h.bytes]
    · simp
    · rintro e he p ⟨⟩
      exact (forall_mem_append.mpr ⟨fun e he => (hbehind e he).le,
        forall_mem_singleton.mpr le_rfl⟩) e he
    · refine forall_mem_append.mpr ⟨h.named_append header, forall_mem_singleton.mpr
        ⟨headers, header, [], rfl, hcount, ?_⟩⟩
      rw [entryOf, h.position]
    · exact fun hnil => absurd hnil (append_ne_nil_of_right_ne_nil _ (cons_ne_nil _ _))
    · intro e es he
      cases hentries : entries with
      | nil =>
        rw [hentries, nil_append, List.cons.injEq] at he
        obtain ⟨rfl, -⟩ := he
        obtain ⟨hnone, hempty⟩ := h.empty hentries
        exact ⟨by rw [hnone, getD_none], headers, [header], rfl, hempty, h.position.symm⟩
      | cons d ds =>
        rw [hentries, cons_append, List.cons.injEq] at he
        obtain ⟨rfl, -⟩ := he
        have hfirst := h.first_append header d ds hentries
        exact ⟨by rw [hfirst.1, getD_some], hfirst.2⟩
    · refine pairwise_append.mpr ⟨h.positions, pairwise_singleton .., fun a ha b hb => ?_⟩
      rw [mem_singleton.mp hb]
      exact hbehind a ha
    · exact forall_mem_append.mpr ⟨hbelow, forall_mem_singleton.mpr hendOffset.1⟩
    · intro hend
      refine pairwise_append.mpr ⟨hpairwise hend, pairwise_singleton .., fun a ha b hb => ?_⟩
      rw [mem_singleton.mp hb]
      exact (h.lt_baseOffset hoffset (hlast ▸ hend) ha).1

theorem accept (hproven : provenBatchAt xxh3 log w.position = some header)
    (hoffset : header.baseOffset = w.expectedOffset) :
    ∃ entries', Rebuilt (headers ++ [header]) (w.accept header) entries' := by
  by_cases hcount : 0 < header.messageCount
  · have hbase := (word_of_peekHeader (provenBatchAt_eq_some.mp hproven).1).1
    exact h.accept_full hcount hoffset (Nat.le_pred_of_lt hbase)
  · exact ⟨entries, h.accept_empty hcount⟩

end

theorem foldl {rest : List Header} (h : Rebuilt headers w entries)
    (hchain : Chain xxh3 partitionId log w.position w.expectedOffset rest) :
    ∃ entries', Rebuilt (headers ++ rest) (rest.foldl LogWalk.accept w) entries' := by
  induction rest generalizing headers w entries with
  | nil => exact ⟨entries, by rwa [append_nil]⟩
  | cons header rest ih =>
    obtain ⟨hproven, -, hoffset, hrest⟩ := hchain
    obtain ⟨entries', h'⟩ := h.accept hproven hoffset
    have hposition : (w.accept header).position = w.position + header.batchLength :=
      (LogWalk.walker 0).position_accept w header
    have hexpected : (w.accept header).expectedOffset = expectedAfter w.expectedOffset header :=
      (LogWalk.walker 0).expected_accept w header
    rw [← hposition, ← hexpected] at hrest
    obtain ⟨entries'', h''⟩ := ih h' hrest
    exact ⟨entries'', by rwa [append_assoc, singleton_append] at h''⟩

end Rebuilt

theorem exists_rebuilt (hchain : Chain xxh3 partitionId log 0 startOffset headers) :
    ∃ entries, Rebuilt headers (walked startOffset headers) entries :=
  (Rebuilt.start startOffset).foldl hchain

/-! ## Reading an index back -/

variable {e : IggyIndex}

theorem readEntry_entryBytes (hoffset : e.offset < 2 ^ 64) (htimestamp : e.timestamp < 2 ^ 64)
    (hposition : e.position < 2 ^ 64) : readEntry (entryBytes e) = e := by
  have hfits : FieldsFit indexWidths [e.offset, e.timestamp, e.position] :=
    .cons hoffset (.cons htimestamp (.cons hposition .nil))
  rw [readEntry, entryBytes, unpackFields_packFields hfits]

theorem length_entryBytes (e : IggyIndex) : (entryBytes e).length = iggyIndexSize := by
  simp [entryBytes, packFields, indexWidths, iggyIndexSize]

theorem indexEntries_flatMap {entries : List IggyIndex}
    (h : ∀ e ∈ entries, readEntry (entryBytes e) = e) :
    indexEntries (entries.flatMap entryBytes) = entries := by
  have hlength := length_flatMap_const iggyIndexSize entryBytes entries fun e _ => length_entryBytes e
  have hcount : (entries.flatMap entryBytes).length / iggyIndexSize = entries.length := by
    rw [hlength, Nat.mul_div_cancel _ (by decide)]
  refine ext_getElem (by rw [indexEntries, length_map, length_range, hcount])
    fun i hi hi' => ?_
  simp only [indexEntries, getElem_map, getElem_range]
  rw [chunkAt_flatMap iggyIndexSize entryBytes entries (fun e _ => length_entryBytes e) i hi']
  exact h _ (getElem_mem hi')

theorem indexEntries_take (index : Bytes) :
    indexEntries (index.take ((indexEntries index).length * iggyIndexSize)) = indexEntries index := by
  have hcount : (indexEntries index).length = index.length / iggyIndexSize := by
    rw [indexEntries, length_map, length_range]
  have hle : index.length / iggyIndexSize * iggyIndexSize ≤ index.length := Nat.div_mul_le_self ..
  rw [hcount]
  have hlength : (index.take (index.length / iggyIndexSize * iggyIndexSize)).length / iggyIndexSize =
      index.length / iggyIndexSize := by
    rw [length_take, min_eq_left hle, Nat.mul_div_cancel _ (by decide)]
  unfold indexEntries
  rw [hlength]
  refine map_congr_left fun i hi => congrArg readEntry ?_
  have hi := mem_range.mp hi
  have hmul : (i + 1) * iggyIndexSize ≤ index.length / iggyIndexSize * iggyIndexSize :=
    Nat.mul_le_mul_right _ hi
  rw [Nat.succ_mul] at hmul
  rw [chunkAt, chunkAt, drop_take, take_take, min_eq_left (by omega)]

/-! ## The index against the log -/

variable {entries : List IggyIndex}

theorem validateEntries_consistent {previous : Option IggyIndex} {mappings : Bool}
    (h : (validateEntries partitionId log startOffset previous mappings
      entries).structurallyConsistent = true) :
    (validateEntries partitionId log startOffset previous mappings entries).mappingsMatch =
        (mappings && entries.all (entryMatches partitionId log)) ∧
      (∀ p, previous = some p → ∀ e ∈ entries, p.offset < e.offset ∧ p.position < e.position) ∧
      (entries.Pairwise fun a b => a.offset < b.offset ∧ a.position < b.position) ∧
      (previous = none → ∀ e es, entries = e :: es → e.offset = startOffset ∧ e.position = 0) := by
  induction entries generalizing previous mappings with
  | nil =>
    exact ⟨(Bool.and_true _).symm, fun _ _ _ h => absurd h not_mem_nil, .nil,
      fun _ _ _ h => absurd h.symm (cons_ne_nil _ _)⟩
  | cons e es ih =>
    unfold validateEntries at h ⊢
    split_ifs at h with hascends hfirst
    obtain ⟨hmatch, hbelow, hpairwise, -⟩ := ih h
    rw [if_neg hascends, if_neg hfirst]
    refine ⟨?_, fun p hp x hx => ?_, pairwise_cons.mpr ⟨hbelow e rfl, hpairwise⟩, ?_⟩
    · rw [hmatch, all_cons, Bool.and_assoc]
    · rw [hp, any_some, decide_eq_true_iff, not_or, not_le, not_le] at hascends
      rcases mem_cons.mp hx with rfl | hx
      · exact hascends
      · exact ⟨hascends.1.trans (hbelow e rfl x hx).1, hascends.2.trans (hbelow e rfl x hx).2⟩
    · rintro hnone x xs hx
      obtain ⟨rfl, -⟩ := List.cons.inj hx
      rw [not_and, not_or, not_not, not_not] at hfirst
      exact hfirst hnone

theorem structurallyConsistent_congr (log log' : Bytes) (previous : Option IggyIndex)
    (mappings mappings' : Bool) (entries : List IggyIndex) :
    (validateEntries partitionId log startOffset previous mappings entries).structurallyConsistent =
      (validateEntries partitionId log' startOffset previous mappings'
        entries).structurallyConsistent := by
  induction entries generalizing previous mappings mappings' with
  | nil => rfl
  | cons e es ih =>
    unfold validateEntries
    split
    · rfl
    · split
      · rfl
      · exact ih ..

theorem entryMatches_eq_true : entryMatches partitionId log e = true ↔
    ∃ header, peekHeader log e.position = some header ∧ header.partitionId = partitionId ∧
      header.baseOffset = e.offset ∧ header.baseTimestamp = e.timestamp ∧
      0 < header.messageCount ∧ e.position + header.batchLength ≤ log.length := by
  unfold entryMatches
  simp only [Option.any_eq_true, decide_eq_true_eq]

/-! ## The walk from an entry of the chain -/

/-- Both walks end at the same message. -/
def EndsAlike (w : LogWalk) (a : AnchoredWalk) : Prop :=
  a.endOffset = w.endOffset ∧ a.endTimestamp = w.endTimestamp

theorem endsAlike_accept (w : LogWalk) (a : AnchoredWalk)
    (h : 0 < header.messageCount ∨ EndsAlike w a) :
    EndsAlike (w.accept header) (a.accept header) := by
  unfold LogWalk.accept accept
  split
  case isTrue => exact ⟨rfl, rfl⟩
  case isFalse hcount => exact h.resolve_left hcount

theorem endsAlike_foldl {w : LogWalk} {a : AnchoredWalk} (h : EndsAlike w a)
    (headers : List Header) :
    EndsAlike (headers.foldl LogWalk.accept w) (headers.foldl accept a) := by
  induction headers generalizing w a with
  | nil => exact h
  | cons header rest ih => exact ih (endsAlike_accept w a (.inr h))

theorem AnchoredWalk.startTimestamp_foldl {a : AnchoredWalk} {timestamp : Nat}
    (h : a.startTimestamp = some timestamp) (headers : List Header) :
    (headers.foldl accept a).startTimestamp = some timestamp := by
  induction headers generalizing a with
  | nil => exact h
  | cons header rest ih =>
    refine ih ?_
    unfold accept
    split
    · exact congrArg some (by rw [h, getD_some])
    · exact h

/-- The walk from the entry of a batch of the chain, over the log cut behind the chain. -/
theorem walkChainFromAnchor_kept {before rest : List Header}
    (hchain : Chain xxh3 partitionId log 0 startOffset (before ++ header :: rest))
    (hfull : 0 < header.messageCount) (hoffset : e.offset = header.baseOffset)
    (hposition : e.position = chainSize before) :
    ∃ a, walkChainFromAnchor xxh3 partitionId
        (log.take (chainSize (before ++ header :: rest))) startOffset e = .ok a ∧
      a.startTimestamp = some header.baseTimestamp ∧
      a.position = chainSize (before ++ header :: rest) ∧
      EndsAlike (walked startOffset (before ++ header :: rest)) a := by
  have hsize := hchain.size_le
  have hlength : (log.take (chainSize (before ++ header :: rest))).length =
      chainSize (before ++ header :: rest) := by
    rw [length_take, min_eq_left hsize]
  have htotal : chainSize before + chainSize (header :: rest) =
      chainSize (before ++ header :: rest) := (chainSize_append ..).symm
  have hkept := (hchain.take hsize (Nat.zero_add _).le).drop
  rw [Nat.zero_add, ← hposition, ← hoffset] at hkept
  have hlen := hkept.length_le_chainSize
  refine ⟨(header :: rest).foldl accept (.start e),
    Walker.walk_chain hkept (by rw [hlength, ← htotal, ← hposition]; rfl) (by omega), ?_, ?_, ?_⟩
  · refine startTimestamp_foldl ?_ rest
    rw [accept, if_pos hfull]
    rfl
  · have hfold := (walker startOffset).position_foldl (header :: rest) (.start e)
    rw [← htotal, ← hposition]
    exact hfold
  · rw [walked, foldl_append, foldl_cons, foldl_cons]
    exact endsAlike_foldl (endsAlike_accept _ _ (.inl hfull)) rest

end Iggy.SegmentRecovery
