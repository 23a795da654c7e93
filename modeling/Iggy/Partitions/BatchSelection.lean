import Iggy.Wire.Batch

/-!
# Selecting the messages of a batch

Source: partitions/src/journal.rs:66-94, 1225-1342.

The two tiers of a poll share which frames of a stored batch answer a lookup, and the fragments a
reply carries for them. A batch that is taken whole is forwarded as it is stored; of any other a
slice of the blob is taken behind a header that is rewritten for it. What a poll returned is what a
reader finds in the bytes of its fragments (`readMessages`).
-/

namespace Iggy.Poll

open List Lib Batch Frame

/-! ## Lookups -/

/-- `MessageLookup`; `ceiling` is the commit offset, which no served message exceeds. -/
inductive MessageLookup
  | offset (start count ceiling : Nat)
  | timestamp (since count ceiling : Nat)
  deriving DecidableEq

namespace MessageLookup

def count : MessageLookup → Nat
  | offset _ count _ => count
  | timestamp _ count _ => count

def ceiling : MessageLookup → Nat
  | offset _ _ ceiling => ceiling
  | timestamp _ _ ceiling => ceiling

/-- The lower bound: on the offset, or on the time at which the broker appended the batch. -/
def selects (query : MessageLookup) (offset baseTimestamp : Nat) : Bool :=
  match query with
  | .offset start _ _ => start ≤ offset
  | .timestamp since _ _ => since ≤ baseTimestamp

end MessageLookup

/-! ## One batch -/

def frameOffset (header : Header) (f : Frame) : Nat :=
  (header.baseOffset + f.header.offsetDelta) % 2 ^ 64

/-- `BatchMessageWithOffsets`: a frame and where it lies in the blob. -/
structure Framed where
  start : Nat
  stop : Nat
  message : Frame
  deriving DecidableEq

def framedFrom : Nat → List Frame → List Framed
  | _, [] => []
  | position, f :: rest =>
    ⟨position, position + f.header.totalSize, f⟩ :: framedFrom (position + f.header.totalSize) rest

structure SelectedBatchSlice where
  start : Nat
  stop : Nat
  matchedMessages : Nat
  lastMatchingOffset : Nat
  deriving DecidableEq

def extendSlice (acc : Option SelectedBatchSlice) (record : Framed) (offset : Nat) :
    SelectedBatchSlice :=
  match acc with
  | none => ⟨record.start, record.stop, 1, offset⟩
  | some s => ⟨s.start, record.stop, s.matchedMessages + 1, offset⟩

/-- The loop of `select_batch_slice`: it ends at the ceiling rather than skip it. -/
def selectFrames (header : Header) (query : MessageLookup) (remaining : Nat) :
    List Framed → Option SelectedBatchSlice → Option SelectedBatchSlice
  | [], acc => acc
  | record :: rest, acc =>
    let offset := frameOffset header record.message
    if query.ceiling < offset then acc
    else if query.selects offset header.baseTimestamp then
      let slice := extendSlice acc record offset
      if slice.matchedMessages = remaining then some slice
      else selectFrames header query remaining rest (some slice)
    else selectFrames header query remaining rest acc

def selectBatchSlice (batch : BatchRef) (query : MessageLookup) (alreadyMatched : Nat) :
    Option SelectedBatchSlice :=
  let remaining := query.count - alreadyMatched
  if remaining = 0 ∨ batch.header.messageCount = 0 then none
  else selectFrames batch.header query remaining (framedFrom 0 batch.frames) none

/-! ## The reply -/

/-- A piece of a reply: its bytes, and whether it slices the buffer it was selected from. -/
structure Fragment where
  bytes : Bytes
  borrows : Bool
  deriving DecidableEq

structure Selection where
  fragments : List Fragment := []
  lastMatchingOffset : Option Nat := none
  matched : Nat := 0
  deriving DecidableEq

section

variable (xxh3 : Bytes → UInt64)

def slicedHeader (header : Header) (matched : Nat) (slice : Bytes) : Header :=
  let rewritten :=
    { header with batchLength := Batch.headerSize + slice.length, messageCount := matched }
  { rewritten with batchChecksum := calculateBatchChecksum xxh3 rewritten slice }

/-- `push_selected_batch_fragments`; `source` starts at the batch. -/
def pushSelectedBatchFragments (acc : Selection) (source : Bytes) (batch : BatchRef)
    (selection : SelectedBatchSlice) : Selection :=
  let added :=
    if selection.start = 0 ∧ selection.stop = batch.blob.length then
      [⟨source.take batch.header.batchLength, true⟩]
    else
      let slice := (batch.blob.drop selection.start).take (selection.stop - selection.start)
      [⟨(slicedHeader xxh3 batch.header selection.matchedMessages slice).encode, false⟩,
        ⟨(source.drop (Batch.headerSize + selection.start)).take
          (selection.stop - selection.start), true⟩]
  { fragments := acc.fragments ++ added
    lastMatchingOffset := some selection.lastMatchingOffset
    matched := acc.matched + selection.matchedMessages }

def pushBatch (query : MessageLookup) (acc : Selection) (source : Bytes) (batch : BatchRef) :
    Selection :=
  match selectBatchSlice batch query acc.matched with
  | none => acc
  | some selection => pushSelectedBatchFragments xxh3 acc source batch selection

/-! ## What a reader finds -/

structure PolledMessage where
  offset : Nat
  timestamp : Nat
  frame : Frame
  deriving DecidableEq

def messages (batch : BatchRef) : List PolledMessage :=
  batch.frames.map fun f => ⟨frameOffset batch.header f, batch.header.baseTimestamp, f⟩

/-- Verified batches laid end to end. -/
def batchFraming : Framing BatchRef where
  next bs := (decodeBatchSlice xxh3 bs).toOption
  size batch := batch.header.batchLength
  size_pos h :=
    Nat.lt_of_lt_of_le (by decide) (headerSize_le_batchLength (toOption_eq_some.mp h))
  size_le h := (decodeBatchSliceWith_eq_ok.mp (toOption_eq_some.mp h)).2.1

def readMessages (fragments : List Fragment) : List PolledMessage :=
  ((batchFraming xxh3).records (fragments.flatMap Fragment.bytes)).flatMap messages

end

/-! ## Which frames are selected -/

/-- A committed message that answers the lookup. -/
def wanted (query : MessageLookup) (m : PolledMessage) : Bool :=
  m.offset ≤ query.ceiling && query.selects m.offset m.timestamp

def wantedFrame (header : Header) (query : MessageLookup) (f : Frame) : Bool :=
  wanted query ⟨frameOffset header f, header.baseTimestamp, f⟩

def framesSize (fs : List Frame) : Nat := (fs.map (·.header.totalSize)).sum

/-- The frames that the loop reads: those before the first past the ceiling. -/
def visibleFrames (header : Header) (query : MessageLookup) (fs : List Frame) : List Frame :=
  fs.takeWhile fun f => frameOffset header f ≤ query.ceiling

def selectsFrame (header : Header) (query : MessageLookup) (f : Frame) : Bool :=
  query.selects (frameOffset header f) header.baseTimestamp

theorem framesSize_append (fs gs : List Frame) :
    framesSize (fs ++ gs) = framesSize fs + framesSize gs := by
  simp [framesSize]

def Ascending (header : Header) (fs : List Frame) : Prop :=
  fs.Pairwise fun f g => frameOffset header f < frameOffset header g

section Select

variable {header : Header} {query : MessageLookup} {remaining : Nat} {fs : List Frame}

theorem selects_mono {offset offset' timestamp : Nat} (h : query.selects offset timestamp)
    (hle : offset ≤ offset') : query.selects offset' timestamp := by
  cases query with
  | offset start count ceiling =>
    simp only [MessageLookup.selects, decide_eq_true_eq] at h ⊢
    exact h.trans hle
  | timestamp since count ceiling => exact h

theorem wantedFrame_eq_true {f : Frame} : wantedFrame header query f = true ↔
    frameOffset header f ≤ query.ceiling ∧
      query.selects (frameOffset header f) header.baseTimestamp = true := by
  simp [wantedFrame, wanted]

theorem filter_wantedFrame_eq_nil {f : Frame} (hasc : Ascending header (f :: fs))
    (hover : query.ceiling < frameOffset header f) :
    (f :: fs).filter (wantedFrame header query) = [] := by
  refine filter_eq_nil_iff.mpr fun g hg => ?_
  rw [wantedFrame_eq_true]
  rintro ⟨hle, -⟩
  obtain rfl | hg := mem_cons.mp hg
  · exact absurd hle (not_le.mpr hover)
  · exact absurd hle (not_le.mpr (hover.trans ((pairwise_cons.mp hasc).1 g hg)))

section

variable {sel : Frame → Bool} {pre chosen gap : List Frame} {f : Frame}

def sliceOf (header : Header) (sel : Frame → Bool) (pre chosen : List Frame) :
    Option SelectedBatchSlice :=
  chosen.getLast?.map fun last => ⟨framesSize pre, framesSize pre + framesSize chosen,
    (chosen.filter sel).length, frameOffset header last⟩

/-- Of `pre` nothing is selected, of `chosen` the first and the last frame are. -/
structure Spans (sel : Frame → Bool) (pre chosen : List Frame) : Prop where
  before : pre.filter sel = []
  first : ∀ f, chosen.head? = some f → sel f = true
  last : ∀ f, chosen.getLast? = some f → sel f = true

theorem Spans.extend (h : Spans sel pre chosen) (hnil : chosen = [] → gap = []) (hf : sel f = true) :
    Spans sel pre (chosen ++ gap ++ [f]) := by
  refine ⟨h.before, fun g hg => ?_, fun g hg => ?_⟩
  · cases chosen with
    | nil =>
      rw [hnil rfl] at hg
      cases hg
      exact hf
    | cons x chosen => exact h.first g hg
  · rw [getLast?_concat] at hg
    cases hg
    exact hf

theorem extendSlice_sliceOf (hnil : chosen = [] → gap = []) (hgap : gap.filter sel = [])
    (hf : sel f = true) : ∃ slice, sliceOf header sel pre (chosen ++ gap ++ [f]) = some slice ∧
      slice.matchedMessages = (chosen.filter sel).length + 1 ∧
      extendSlice (sliceOf header sel pre chosen) ⟨framesSize (pre ++ chosen ++ gap),
        framesSize (pre ++ chosen ++ gap ++ [f]), f⟩ (frameOffset header f) = slice := by
  have htaken : (chosen ++ gap ++ [f]).filter sel = chosen.filter sel ++ [f] := by simp [hgap, hf]
  refine ⟨_, by rw [sliceOf, getLast?_concat, Option.map_some], by rw [htaken, length_append]; rfl, ?_⟩
  simp only [htaken, framesSize_append, length_append, sliceOf]
  cases hlast : chosen.getLast? with
  | none =>
    obtain rfl := getLast?_eq_none_iff.mp hlast
    obtain rfl := hnil rfl
    simp [extendSlice, framesSize]
  | some last => simp [extendSlice, Nat.add_assoc]

/-- The loop of `select_batch_slice`; `gap` are the frames since the last one taken. What it takes runs
from the first frame selected to the last one before the ceiling or the count. -/
theorem selectFrames_sliceOf
    (hsel : ∀ f, query.selects (frameOffset header f) header.baseTimestamp = sel f)
    (h : Spans sel pre chosen) (hnil : chosen = [] → gap = []) (hgap : gap.filter sel = [])
    (hroom : (chosen.filter sel).length < remaining) :
    ∃ pre' chosen' post, pre ++ chosen ++ gap ++ fs = pre' ++ chosen' ++ post ∧
      Spans sel pre' chosen' ∧
      chosen'.filter sel = chosen.filter sel ++ ((visibleFrames header query fs).filter sel).take
        (remaining - (chosen.filter sel).length) ∧
      selectFrames header query remaining (framedFrom (framesSize (pre ++ chosen ++ gap)) fs)
        (sliceOf header sel pre chosen) = sliceOf header sel pre' chosen' := by
  induction fs generalizing pre chosen gap with
  | nil => exact ⟨pre, chosen, gap, by simp, h, by simp [visibleFrames], rfl⟩
  | cons f rest ih =>
    have hposition : framesSize (pre ++ chosen ++ gap) + f.header.totalSize =
        framesSize (pre ++ chosen ++ gap ++ [f]) := (framesSize_append _ [f]).symm
    simp only [framedFrom, selectFrames, visibleFrames, hsel, hposition]
    by_cases hover : query.ceiling < frameOffset header f
    · refine ⟨pre, chosen, gap ++ f :: rest, by simp, h, ?_, if_pos hover⟩
      rw [takeWhile_cons_of_neg (by simpa using hover), filter_nil, take_nil, append_nil]
    rw [if_neg hover, takeWhile_cons_of_pos (by simpa using hover)]
    by_cases hf : sel f = true
    · have hspans := h.extend hnil hf
      have htaken : (chosen ++ gap ++ [f]).filter sel = chosen.filter sel ++ [f] := by simp [hgap, hf]
      obtain ⟨room, hroom'⟩ : ∃ room, remaining = (chosen.filter sel).length + (room + 1) :=
        ⟨remaining - (chosen.filter sel).length - 1, by omega⟩
      obtain ⟨slice, hslice, hmatched, hextend⟩ :=
        @extendSlice_sliceOf header sel pre chosen gap f hnil hgap hf
      rw [if_pos hf, filter_cons_of_pos hf, hextend, hmatched, ← hslice, hroom',
        Nat.add_sub_cancel_left, take_succ_cons]
      by_cases hfull : room = 0
      · refine ⟨pre, chosen ++ gap ++ [f], rest, by simp, hspans, ?_, if_pos (by rw [hfull])⟩
        rw [htaken, hfull, take_zero]
      · obtain ⟨pre', chosen', post, hsplit, hspans', hfilter, hloop⟩ :=
          @ih pre (chosen ++ gap ++ [f]) [] hspans (fun _ => rfl) rfl
            (by rw [htaken, length_append, length_singleton]; omega)
        refine ⟨pre', chosen', post, by rw [← hsplit]; simp, hspans', ?_, ?_⟩
        · rw [hfilter, htaken, length_append, length_singleton, append_assoc,
            show remaining - ((chosen.filter sel).length + 1) = room by omega]
          rfl
        · rw [if_neg (by omega), ← hroom', ← hloop, append_nil, append_assoc, append_assoc]
          simp only [append_assoc]
    · rw [if_neg hf, filter_cons_of_neg hf]
      by_cases hchosen : chosen = []
      · obtain rfl := hchosen
        obtain rfl := hnil rfl
        obtain ⟨pre', chosen', post, hsplit, hrest⟩ :=
          @ih (pre ++ [f]) [] [] ⟨by simp [h.before, hf], nofun, nofun⟩ (fun _ => rfl) rfl hroom
        simp only [append_nil] at hsplit hrest ⊢
        exact ⟨pre', chosen', post, by rw [← hsplit]; simp, hrest⟩
      · obtain ⟨pre', chosen', post, hsplit, hrest⟩ :=
          @ih pre chosen (gap ++ [f]) h (fun hnone => absurd hnone hchosen) (by simp [hgap, hf]) hroom
        rw [← append_assoc] at hrest
        exact ⟨pre', chosen', post, by rw [← hsplit]; simp, hrest⟩

end

theorem visibleFrames_max (h : query.ceiling = 2 ^ 64 - 1) : visibleFrames header query fs = fs := by
  have hle : ∀ f ∈ fs, decide (frameOffset header f ≤ query.ceiling) = true := by
    intro f _
    rw [h]
    exact decide_eq_true (Nat.le_pred_of_lt (Nat.mod_lt _ (by decide)))
  rw [visibleFrames, ← append_nil fs, takeWhile_append_of_pos hle, takeWhile_nil]

theorem filter_visibleFrames (hasc : Ascending header fs) :
    (visibleFrames header query fs).filter (selectsFrame header query) =
      fs.filter (wantedFrame header query) := by
  induction fs with
  | nil => rfl
  | cons f rest ih =>
    obtain ⟨hf, hrest⟩ := pairwise_cons.mp hasc
    by_cases hover : query.ceiling < frameOffset header f
    · rw [filter_wantedFrame_eq_nil hasc hover, visibleFrames,
        takeWhile_cons_of_neg (by simpa using hover), filter_nil]
    · have hsame : wantedFrame header query f = selectsFrame header query f := by
        simp [wantedFrame, wanted, selectsFrame, not_lt.mp hover]
      rw [visibleFrames, takeWhile_cons_of_pos (by simpa using hover), ← visibleFrames, filter_cons,
        filter_cons, hsame, ih hrest]

theorem filter_selectsFrame_eq_self (hasc : Ascending header fs)
    (hfirst : ∀ f, fs.head? = some f → selectsFrame header query f = true) :
    fs.filter (selectsFrame header query) = fs := by
  cases fs with
  | nil => rfl
  | cons f rest =>
    have hsel := hfirst f rfl
    refine filter_eq_self.mpr (forall_mem_cons.mpr ⟨hsel, fun g hg => ?_⟩)
    exact selects_mono hsel ((pairwise_cons.mp hasc).1 g hg).le

theorem selectBatchSlice_sliceOf {batch : BatchRef}
    (hcount : batch.frames.length = batch.header.messageCount) (query : MessageLookup)
    (alreadyMatched : Nat) :
    ∃ pre chosen post, batch.frames = pre ++ chosen ++ post ∧
      Spans (selectsFrame batch.header query) pre chosen ∧
      chosen.filter (selectsFrame batch.header query) =
        ((visibleFrames batch.header query batch.frames).filter (selectsFrame batch.header query)).take
          (query.count - alreadyMatched) ∧
      selectBatchSlice batch query alreadyMatched =
        sliceOf batch.header (selectsFrame batch.header query) pre chosen := by
  by_cases hskip : query.count - alreadyMatched = 0 ∨ batch.header.messageCount = 0
  · refine ⟨[], [], batch.frames, rfl, ⟨rfl, nofun, nofun⟩, ?_, if_pos hskip⟩
    obtain hfull | hempty := hskip
    · rw [hfull, take_zero, filter_nil]
    · rw [length_eq_zero_iff.mp (hcount.trans hempty)]
      exact take_nil.symm
  · rw [selectBatchSlice, if_neg hskip]
    exact @selectFrames_sliceOf batch.header query (query.count - alreadyMatched) batch.frames
      (selectsFrame batch.header query) [] [] [] (fun _ => rfl) ⟨rfl, nofun, nofun⟩ (fun _ => rfl) rfl
      (by simp only [filter_nil, length_nil]; omega)

end Select

/-! ## What a selection serves -/

section Serves

variable (xxh3 : Bytes → UInt64)

/-- Bytes that are exactly one verified batch. -/
def IsBatch (raw : Bytes) (batch : BatchRef) : Prop :=
  decodeBatchSlice xxh3 raw = .ok batch ∧ raw.length = batch.header.batchLength

/-- A verified batch with offsets that ascend from its base. Admission reads no offset delta, so the
order inside the batch is an assumption on the producer. -/
structure StoredBatch where
  raw : Bytes
  batch : BatchRef
  isBatch : IsBatch xxh3 raw batch
  ascending : Ascending batch.header batch.frames
  based : ∀ f ∈ batch.frames, batch.header.baseOffset ≤ frameOffset batch.header f

/-- A selection whose fragments read as the messages `ms`. -/
structure Selection.Serves (acc : Selection) (ms : List PolledMessage) : Prop where
  encoded : ∃ parts : List (Bytes × BatchRef), (∀ part ∈ parts, IsBatch xxh3 part.1 part.2) ∧
    acc.fragments.flatMap Fragment.bytes = parts.flatMap Prod.fst ∧
    parts.flatMap (fun part => messages part.2) = ms
  last : acc.lastMatchingOffset = ms.getLast?.map PolledMessage.offset
  matched : acc.matched = ms.length

variable {xxh3} {acc : Selection} {ms : List PolledMessage} {query : MessageLookup}
  {raw : Bytes} {batch : BatchRef}

theorem IsBatch.tiled (h : IsBatch xxh3 raw batch) : batch.Tiled :=
  (decodeBatchSliceWith_eq_ok.mp h.1).2.2.2.1

theorem IsBatch.headerSize_le (h : IsBatch xxh3 raw batch) : Batch.headerSize ≤ raw.length := by
  rw [h.2]
  exact headerSize_le_batchLength h.1

theorem IsBatch.blob_eq (h : IsBatch xxh3 raw batch) : batch.blob = raw.drop Batch.headerSize := by
  rw [congrArg BatchRef.blob (decodeBatchSliceWith_eq_ok.mp h.1).2.2.1, BatchRef.blob_ofBody]
  refine take_of_length_le ?_
  rw [length_drop, h.2, Header.blobLen]

/-- **The reply reads as what was selected.** -/
theorem Selection.Serves.readMessages (h : acc.Serves xxh3 ms) :
    readMessages xxh3 acc.fragments = ms := by
  obtain ⟨parts, hparts, hbytes, hmessages⟩ := h.encoded
  have hrecords : (batchFraming xxh3).records (parts.flatMap Prod.fst) = parts.map Prod.snd :=
    Framing.records_flatMap
      (fun part hpart tail =>
        toOption_eq_some.mpr (decodeBatchSliceWith_append (hparts part hpart).1 (hparts part hpart).2 tail))
      (fun part hpart => (hparts part hpart).2.symm)
  rw [Poll.readMessages, hbytes, hrecords, flatMap_map]
  exact hmessages

theorem serves_nil : Selection.Serves xxh3 {} [] :=
  ⟨⟨[], nofun, rfl, rfl⟩, rfl, rfl⟩

theorem records_flatMap_bytes {blob : Bytes} {fs : List Frame}
    (h : ∀ f ∈ fs, f ∈ framing.records blob) :
    framing.records (fs.flatMap bytes) = fs ∧
      framing.covered (fs.flatMap bytes) = (fs.flatMap bytes).length ∧
      (fs.flatMap bytes).length = framesSize fs := by
  have hread : ∀ f ∈ fs, ∀ tail, framing.next (f.bytes ++ tail) = some (id f) := fun f hf tail => by
    obtain ⟨bs, hnext⟩ := nextFrame_of_mem (h f hf)
    exact nextFrame_bytes_append hnext tail
  have hsize : ∀ f ∈ fs, framing.size (id f) = f.bytes.length := fun f hf => by
    obtain ⟨bs, hnext⟩ := nextFrame_of_mem (h f hf)
    exact (length_bytes_of_nextFrame hnext).symm
  refine ⟨(Framing.records_flatMap hread hsize).trans (map_id fs),
    Framing.covered_flatMap hread hsize, ?_⟩
  rw [length_flatMap, framesSize]
  exact congrArg List.sum (map_congr_left fun f hf => (hsize f hf).symm)

theorem framesSize_eq_zero {fs : List Frame} (h : framesSize fs = 0) : fs = [] := by
  cases fs with
  | nil => rfl
  | cons f fs =>
    simp only [framesSize, map_cons, sum_cons, MessageHeader.totalSize, messageHeaderSize] at h
    omega

variable {pre chosen post : List Frame}

theorem fits_slicedHeader (h : IsBatch xxh3 raw batch) {matched : Nat} {slice : Bytes}
    (hmatched : matched ≤ batch.frames.length) (hslice : slice.length ≤ batch.blob.length) :
    (slicedHeader xxh3 batch.header matched slice).Fits := by
  obtain ⟨hheader, -, -, ⟨hcount, -⟩, -⟩ := decodeBatchSliceWith_eq_ok.mp h.1
  have hcover := h.headerSize_le
  have hblob : batch.blob.length + Batch.headerSize = batch.header.batchLength := by
    rw [h.blob_eq, length_drop, ← h.2]
    omega
  have hfits := Header.fits_of_decode hheader
  simp only [Header.fits_iff, slicedHeader, calculateBatchChecksum] at hfits ⊢
  refine ⟨hfits.1, hfits.2.1, hfits.2.2.1, hfits.2.2.2.1, by omega, ?_, by omega⟩
  exact Nat.lt_of_lt_of_le (UInt64.toNat_lt _) (by decide)

theorem length_flatMap_le_blob (h : IsBatch xxh3 raw batch)
    (hframes : batch.frames = pre ++ chosen ++ post) :
    (chosen.flatMap bytes).length ≤ batch.blob.length := by
  rw [← h.tiled.flatMap_frames, hframes]
  simp only [flatMap_append, length_append]
  omega

/-- `part` is a verified batch of some frames of `batch`, under its header's base. -/
structure Slices (xxh3 : Bytes → UInt64) (batch : BatchRef) (frames : List Frame) (part : Bytes)
    (cut : BatchRef) : Prop where
  isBatch : IsBatch xxh3 part cut
  frames_eq : cut.frames = frames
  baseOffset : cut.header.baseOffset = batch.header.baseOffset
  baseTimestamp : cut.header.baseTimestamp = batch.header.baseTimestamp

theorem slices_self (h : IsBatch xxh3 raw batch) : Slices xxh3 batch batch.frames raw batch :=
  ⟨h, rfl, rfl, rfl⟩

theorem slices_sliced (h : IsBatch xxh3 raw batch)
    (hframes : batch.frames = pre ++ chosen ++ post) :
    Slices xxh3 batch chosen
      ((slicedHeader xxh3 batch.header chosen.length (chosen.flatMap bytes)).encode ++
        chosen.flatMap bytes)
      ⟨slicedHeader xxh3 batch.header chosen.length (chosen.flatMap bytes),
        chosen.flatMap bytes⟩ := by
  obtain ⟨-, -, -, -, hverify⟩ := decodeBatchSliceWith_eq_ok.mp h.1
  have hmem : ∀ f ∈ chosen, f ∈ batch.frames := fun f hf => by
    rw [hframes]
    exact mem_append_left _ (mem_append_right _ hf)
  obtain ⟨hrecords, hcovered, hsize⟩ := records_flatMap_bytes hmem
  have hfewer : chosen.length ≤ batch.frames.length := by
    rw [hframes]
    simp only [length_append]
    omega
  have hfits := fits_slicedHeader h hfewer (length_flatMap_le_blob h hframes)
  refine ⟨⟨decodeBatchSlice_encode hfits rfl (by rw [hrecords]; rfl) hcovered ?_ rfl, ?_⟩,
    hrecords, rfl, rfl⟩
  · rw [hrecords]
    exact fun f hf => (hverify rfl).1 f (hmem f hf)
  · rw [length_append, Header.length_encode]
    rfl

theorem Slices.messages_eq {cut : BatchRef} {part : Bytes}
    (h : Slices xxh3 batch chosen part cut) : messages cut = chosen.map fun f =>
      ⟨frameOffset batch.header f, batch.header.baseTimestamp, f⟩ := by
  simp only [messages, frameOffset, h.frames_eq, h.baseOffset, h.baseTimestamp]

theorem IsBatch.take_drop_blob (h : IsBatch xxh3 raw batch)
    (hframes : batch.frames = pre ++ chosen ++ post) (rest : Bytes) :
    ((batch.blob ++ rest).drop (framesSize pre)).take (framesSize chosen) =
      chosen.flatMap bytes := by
  have hsize : ∀ fs, (∀ f ∈ fs, f ∈ batch.frames) →
      (fs.flatMap bytes).length = framesSize fs := fun fs hfs =>
    (records_flatMap_bytes hfs).2.2
  have hpre := hsize pre fun f hf => by
    rw [hframes]
    exact mem_append_left _ (mem_append_left _ hf)
  have hchosen := hsize chosen fun f hf => by
    rw [hframes]
    exact mem_append_left _ (mem_append_right _ hf)
  rw [← h.tiled.flatMap_frames, hframes, flatMap_append, flatMap_append,
    append_assoc, append_assoc, drop_left' hpre, take_left' hchosen]

/-- The bytes that pushing a selection adds: the batch as it is stored if the slice covers it, else the
frames of the slice behind a header with the number that matched. -/
theorem flatMap_pushSelected (acc : Selection) {tail : Bytes} (h : IsBatch xxh3 raw batch)
    {matched offset : Nat} (hframes : batch.frames = pre ++ chosen ++ post) :
    (pushSelectedBatchFragments xxh3 acc (raw ++ tail) batch
        ⟨framesSize pre, framesSize pre + framesSize chosen, matched,
          offset⟩).fragments.flatMap Fragment.bytes =
      acc.fragments.flatMap Fragment.bytes ++ if pre = [] ∧ post = [] then raw else
        (slicedHeader xxh3 batch.header matched (chosen.flatMap bytes)).encode ++
          chosen.flatMap bytes := by
  have hsum : batch.blob.length = framesSize pre + framesSize chosen + framesSize post := by
    have hall := (@records_flatMap_bytes batch.blob batch.frames fun f hf => hf).2.2
    rw [h.tiled.flatMap_frames, hframes] at hall
    simpa [framesSize, Nat.add_assoc] using hall
  by_cases hwhole : pre = [] ∧ post = []
  · obtain ⟨rfl, rfl⟩ := hwhole
    have hfull : framesSize ([] : List Frame) = 0 ∧
        framesSize [] + framesSize chosen = batch.blob.length := ⟨rfl, hsum.symm⟩
    simp only [pushSelectedBatchFragments, if_pos hfull, flatMap_append, flatMap_singleton]
    rw [take_left' h.2, if_pos ⟨trivial, trivial⟩]
  · have hpart : ¬ (framesSize pre = 0 ∧ framesSize pre + framesSize chosen = batch.blob.length) :=
      fun hfull => hwhole ⟨framesSize_eq_zero hfull.1, framesSize_eq_zero (by omega)⟩
    have hown := h.take_drop_blob hframes []
    rw [append_nil] at hown
    have hsource : (raw ++ tail).drop Batch.headerSize = batch.blob ++ tail := by
      rw [drop_append_of_le_length h.headerSize_le, h.blob_eq]
    simp only [pushSelectedBatchFragments, if_neg hpart, if_neg hwhole, flatMap_append, flatMap_cons,
      flatMap_nil, append_nil, Nat.add_sub_cancel_left]
    rw [hown, ← drop_drop, hsource, h.take_drop_blob hframes tail]

theorem slices_pushSelected (acc : Selection) {tail : Bytes} (h : IsBatch xxh3 raw batch)
    {matched offset : Nat} (hframes : batch.frames = pre ++ chosen ++ post)
    (hmatched : ¬ (pre = [] ∧ post = []) → matched = chosen.length) :
    ∃ part cut, Slices xxh3 batch chosen part cut ∧
      (pushSelectedBatchFragments xxh3 acc (raw ++ tail) batch
        ⟨framesSize pre, framesSize pre + framesSize chosen, matched,
          offset⟩).fragments.flatMap Fragment.bytes =
        acc.fragments.flatMap Fragment.bytes ++ part := by
  rw [flatMap_pushSelected acc h hframes]
  by_cases hwhole : pre = [] ∧ post = []
  · obtain ⟨rfl, rfl⟩ := hwhole
    rw [nil_append, append_nil] at hframes
    exact ⟨raw, batch, hframes ▸ slices_self h, by rw [if_pos ⟨rfl, rfl⟩]⟩
  · rw [if_neg hwhole, hmatched hwhole]
    exact ⟨_, _, slices_sliced h hframes, rfl⟩

theorem serves_pushSelected (hserves : acc.Serves xxh3 ms) {tail : Bytes}
    (h : IsBatch xxh3 raw batch) {last : Frame} (hframes : batch.frames = pre ++ chosen ++ post)
    (hlast : chosen.getLast? = some last) :
    (pushSelectedBatchFragments xxh3 acc (raw ++ tail) batch
      ⟨framesSize pre, framesSize pre + framesSize chosen, chosen.length,
        frameOffset batch.header last⟩).Serves xxh3
      (ms ++ chosen.map fun f => ⟨frameOffset batch.header f, batch.header.baseTimestamp, f⟩) := by
  obtain ⟨⟨parts, hparts, hbytes, hmessages⟩, -, hmatched⟩ := hserves
  obtain ⟨part, cut, hcut, hadded⟩ :=
    @slices_pushSelected _ _ _ _ _ _ acc tail h _ (frameOffset batch.header last) hframes fun _ => rfl
  refine ⟨⟨parts ++ [(part, cut)], forall_mem_append.mpr ⟨hparts, forall_mem_singleton.mpr hcut.isBatch⟩,
    ?_, ?_⟩, ?_, ?_⟩
  · rw [hadded, hbytes, flatMap_append, flatMap_singleton]
  · rw [flatMap_append, flatMap_singleton, hmessages, hcut.messages_eq]
  · rw [getLast?_append, getLast?_map, hlast]
    rfl
  · rw [length_append, length_map, ← hmatched]
    rfl

theorem filter_messages (batch : BatchRef) (n : Nat) :
    ((messages batch).filter (wanted query)).take n =
      ((batch.frames.filter (wantedFrame batch.header query)).take n).map fun f =>
        ⟨frameOffset batch.header f, batch.header.baseTimestamp, f⟩ := by
  rw [messages, filter_map, map_take]
  rfl

theorem pushBatch_cases (b : StoredBatch xxh3) (tail : Bytes) :
    ∃ chosen, chosen = (b.batch.frames.filter (wantedFrame b.batch.header query)).take
        (query.count - acc.matched) ∧
      (chosen = [] ∧ pushBatch xxh3 query acc (b.raw ++ tail) b.batch = acc ∨
        ∃ pre post last, b.batch.frames = pre ++ chosen ++ post ∧ chosen.getLast? = some last ∧
          pushBatch xxh3 query acc (b.raw ++ tail) b.batch =
            pushSelectedBatchFragments xxh3 acc (b.raw ++ tail) b.batch
              ⟨framesSize pre, framesSize pre + framesSize chosen, chosen.length,
                frameOffset b.batch.header last⟩) := by
  obtain ⟨pre, chosen, post, hframes, hspans, hfilter, hselect⟩ :=
    selectBatchSlice_sliceOf b.isBatch.tiled.1 query acc.matched
  have hasc : Ascending b.batch.header chosen :=
    b.ascending.sublist (hframes ▸ (sublist_append_right pre chosen).trans (sublist_append_left _ post))
  have hall := filter_selectsFrame_eq_self hasc hspans.first
  rw [hall, filter_visibleFrames b.ascending] at hfilter
  rw [sliceOf, hall] at hselect
  refine ⟨chosen, hfilter, ?_⟩
  unfold pushBatch
  cases hlast : chosen.getLast? with
  | none => exact .inl ⟨getLast?_eq_none_iff.mp hlast, by rw [hselect, hlast]; rfl⟩
  | some last => exact .inr ⟨pre, post, last, hframes, rfl, by rw [hselect, hlast]; rfl⟩

/-- **One batch of a walk.** The reply gains what is wanted of the batch, as far as the count
reaches. -/
theorem serves_pushBatch (hserves : acc.Serves xxh3 ms) (b : StoredBatch xxh3) (tail : Bytes) :
    (pushBatch xxh3 query acc (b.raw ++ tail) b.batch).Serves xxh3
      (ms ++ ((messages b.batch).filter (wanted query)).take (query.count - ms.length)) := by
  rw [filter_messages, ← hserves.matched]
  obtain ⟨chosen, hchosen, hcase⟩ := pushBatch_cases b tail
  rw [← hchosen]
  obtain ⟨hnil, hpush⟩ | ⟨pre, post, last, hframes, hlast, hpush⟩ := hcase
  · rw [hpush, hnil, map_nil, append_nil]
    exact hserves
  · rw [hpush]
    exact serves_pushSelected hserves b.isBatch hframes hlast

end Serves

end Iggy.Poll
