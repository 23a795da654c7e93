import Iggy.Partitions.LimitBytes
import Iggy.ServerCommon.MessageOffsets

/-!
# The rewrites of a batch

A batch is rewritten on its way from the producer to the consumer: admission writes the partition
into its header, encryption replaces the contents of its frames, the append stamps offset and time
(`Prepares`), a poll takes a slice of it and cuts that to the reply's budget, and decryption
restores the contents (`Polls`).

Every record from the first sealed one on is a batch that readers accept, and its messages are a
contiguous run of the producer's (`rewritten_batch_exact`). For what is polled this rests on the
offsets: selection takes the bytes from the first frame that it matches to the last and counts only
those that match, and where a frame between them does not match the two differ
(`unordered_deltas_break_slice`). `Unbroken` is the order of offsets in which no poll meets such a
frame.
-/

namespace Iggy.Poll

open List Lib Batch Option

/-- `EncryptorKind`: one function of the key, whose nonces are numbered by the call. No plaintext has
an empty ciphertext, which is shorter than the nonce. -/
structure Encryptor where
  encrypt : Nat → Bytes → Option Bytes
  decrypt : Bytes → Option Bytes
  inverse : ∀ {call plain cipher}, encrypt call plain = some cipher → decrypt cipher = some plain
  decrypt_nil : decrypt [] = none

inductive Contents
  | plain | encrypted
  deriving DecidableEq

/-- How far a record has come: `unsealed` records have no batch checksum. -/
inductive Stage
  | unsealed | sealed | stored
  deriving DecidableEq

def Stage.ofMode : ChecksumMode → Stage
  | .compute => .sealed
  | .skip => .unsealed

/-- The bytes that one selection adds to a reply. -/
def selectedRecord (xxh3 : Bytes → UInt64) (source : Bytes) (batch : BatchRef)
    (selection : SelectedBatchSlice) : Bytes :=
  (pushSelectedBatchFragments xxh3 {} source batch selection).fragments.flatMap Fragment.bytes

section

variable (xxh3 : Bytes → UInt64) (key : Encryptor)

/-- The records that the server makes of the producer's `body` until it is stored. -/
inductive Prepares (body : Bytes) : Stage → Contents → Bytes → Prop
  | admitted {partitionId : UInt64} {checksum : ChecksumMode} {record : Bytes}
      (hconvert : convertRequestMessage xxh3 partitionId body checksum = .ok record) :
      Prepares body (.ofMode checksum) .plain record
  | encrypt {record encrypted : Bytes} (h : Prepares body .sealed .plain record)
      (hencrypt : encryptBatchRequest xxh3 key.encrypt record = .ok encrypted) :
      Prepares body .sealed .encrypted encrypted
  | readmit {contents : Contents} {partitionId : UInt64} {checksum : ChecksumMode}
      {record canonical : Bytes} (h : Prepares body .sealed contents record)
      (hconvert : convertRequestMessage xxh3 partitionId record checksum = .ok canonical) :
      Prepares body .sealed contents canonical
  | stamp {stage : Stage} {contents : Contents} {record stored : Bytes} {header : Header}
      {baseOffset baseTimestamp : UInt64} (h : Prepares body stage contents record)
      (hstamp : stampPrepareForPersistence xxh3 record baseOffset baseTimestamp = .ok (stored, header)) :
      Prepares body .stored contents stored

/-- The records that polls make of a stored one. -/
inductive Polls (stored : Bytes) (contents : Contents) : Contents → Bytes → Prop
  | whole : Polls stored contents contents stored
  | select {contents' : Contents} {record : Bytes} {integrity : Integrity} {batch : BatchRef}
      {query : MessageLookup} {alreadyMatched : Nat} {selection : SelectedBatchSlice}
      (tail : Bytes) (h : Polls stored contents contents' record)
      (hdecode : decodeBatchSliceWith xxh3 (record ++ tail) integrity = .ok batch)
      (hselect : selectBatchSlice batch query alreadyMatched = some selection) :
      Polls stored contents contents' (selectedRecord xxh3 (record ++ tail) batch selection)
  | limit {contents' : Contents} {record limited : Bytes} {fragments : List Bytes}
      {maxBytes budget place : Nat} {result : LimitedRead} (h : Polls stored contents contents' record)
      (hrecord : (pieces fragments)[place]? = some record)
      (hlimit : limitBytes xxh3 fragments maxBytes budget = .ok result)
      (hlimited : (pieces result.fragments)[place]? = some limited) :
      Polls stored contents contents' limited
  | decrypt {record decrypted : Bytes} (h : Polls stored contents .encrypted record)
      (hdecrypt : decryptBatchRecord xxh3 key.decrypt record = .ok decrypted) :
      Polls stored contents .plain decrypted

/-- A frame with the message of `f`: its checksum apart, all of it. -/
abbrev SameMessage : Frame → Frame → Prop := Recoded Eq Eq

def Contents.Conveys : Contents → Frame → Frame → Prop
  | .plain => SameMessage
  | .encrypted => Encrypted key.encrypt

/-! ## What a record keeps -/

/-- **What is asked of a record**: readers accept it, and its frames are a contiguous run of the
producer's, with their ids, deltas, payloads and user headers: in the clear, or as the key encrypts
them. -/
def Exact (body : Bytes) (contents : Contents) (record : Bytes) : Prop :=
  ∃ batch, decodeBatchSlice xxh3 record = .ok batch ∧ ∃ run, run <:+: producerFrames xxh3 body ∧
    List.Forall₂ (contents.Conveys key) run batch.frames

/-- No offset of a run is below both its first and its last one, unless an offset before the run is not
or the run is all there is: a poll from the smaller of the two on takes the whole run. -/
def Unbroken (offsets : List Nat) : Prop :=
  ∀ pre run post first last, offsets = pre ++ run ++ post → (pre ≠ [] ∨ post ≠ []) →
    run.head? = some first → run.getLast? = some last → (∀ x ∈ pre, x < min first last) →
    ∀ x ∈ run, min first last ≤ x

/-- A batch before it is polled: it has all messages. -/
def Whole (body : Bytes) (contents : Contents) (record : Bytes) : Prop :=
  ∃ frames, Carries xxh3 record frames ∧
    List.Forall₂ (contents.Conveys key) (producerFrames xxh3 body) frames

/-- A batch with a run of the producer's messages, its offsets unbroken. -/
structure Part (body : Bytes) (contents : Contents) (record : Bytes) (batch : BatchRef) :
    Prop where
  isBatch : IsBatch xxh3 record batch
  run : ∃ run, run <:+: producerFrames xxh3 body ∧
    List.Forall₂ (contents.Conveys key) run batch.frames
  unbroken : Unbroken (batch.frames.map (frameOffset batch.header))

variable {xxh3 key} {body record : Bytes} {contents : Contents} {batch : BatchRef}
  {fs gs : List Frame}

theorem forall₂_sameMessage (fs : List Frame) : List.Forall₂ SameMessage fs fs :=
  forall₂_same.mpr fun _ _ => ⟨rfl, rfl, rfl, rfl, rfl⟩

variable {stage : Stage}

theorem unbroken_of_ascending {offsets : List Nat} (h : offsets.Pairwise (· < ·)) :
    Unbroken offsets := by
  rintro pre run post first last rfl - hfirst - - x hx
  obtain ⟨-, hrun, -⟩ := pairwise_append.mp (pairwise_append.mp h).1
  cases run with
  | nil => cases hx
  | cons y run =>
    cases hfirst
    refine (min_le_left _ _).trans ?_
    rcases mem_cons.mp hx with rfl | hx
    · exact le_rfl
    · exact ((pairwise_cons.mp hrun).1 x hx).le

/-- A run of unbroken offsets is unbroken if its first one is above those before it. -/
theorem Unbroken.slice {pre chosen post : List Nat} (h : Unbroken (pre ++ chosen ++ post))
    (hhead : ∀ first, chosen.head? = some first → ∀ x ∈ pre, x < first) : Unbroken chosen := by
  rintro before run after first last rfl hends hfirst hlast hbefore x hx
  cases hfind : pre.find? (min first last ≤ ·) with
  | none =>
    have hpre : ∀ y ∈ pre, y < min first last := by simpa using find?_eq_none.mp hfind
    refine h (pre ++ before) run (after ++ post) first last (by simp) ?_ hfirst hlast
      (forall_mem_append.mpr ⟨hpre, hbefore⟩) x hx
    rcases hends with hends | hends <;> simp [hends]
  | some y =>
    -- a poll from the smaller bound on takes `y` and all that follows up to `last`
    obtain ⟨hy, pre, rest, rfl, hpre⟩ := find?_eq_some_iff_append.mp hfind
    have hmin : min first last ≤ min y last := le_min (by simpa using hy) (min_le_right _ _)
    refine hmin.trans (h pre (y :: rest ++ before ++ run) (after ++ post) y last (by simp) ?_ rfl
      (by rw [getLast?_append, hlast, some_or]) (fun z hz => ?_) x (by simp [hx]))
    · by_contra hnone
      obtain ⟨rfl, hafter⟩ : pre = [] ∧ after ++ post = [] := by simpa using hnone
      cases before with
      | nil => simp [(append_eq_nil_iff.mp hafter).1] at hends
      | cons z before =>
        have hlt := hhead z rfl y (by simp)
        have hz := hbefore z mem_cons_self
        simp only [decide_eq_true_eq] at hy
        omega
    · have hlt : z < min first last := by simpa using hpre z hz
      exact hlt.trans_le hmin

theorem Part.slice {part : Bytes} {pre chosen post : List Frame} {cut : BatchRef}
    (h : Part xxh3 key body contents record batch) (hframes : batch.frames = pre ++ chosen ++ post)
    (hslice : Slices xxh3 batch chosen part cut)
    (hfirst : ∀ first, chosen.head? = some first → ∀ f ∈ pre,
      frameOffset batch.header f < frameOffset batch.header first) :
    Part xxh3 key body contents part cut := by
  obtain ⟨run, hinfix, hall⟩ := h.run
  have hchosen : (batch.frames.drop pre.length).take chosen.length = chosen := by
    rw [hframes, append_assoc, drop_left, take_left]
  refine ⟨hslice.isBatch, ⟨(run.drop pre.length).take chosen.length, ?_, ?_⟩, ?_⟩
  · exact ((List.take_prefix _ _).isInfix.trans (drop_suffix _ _).isInfix).trans hinfix
  · have hpart := forall₂_take chosen.length (forall₂_drop pre.length hall)
    rw [hslice.frames_eq]
    rwa [hchosen] at hpart
  · have hunbroken := h.unbroken
    rw [hframes, map_append, map_append] at hunbroken
    have hoffset : frameOffset cut.header = frameOffset batch.header := by
      funext f
      rw [frameOffset, hslice.baseOffset, frameOffset]
    rw [hslice.frames_eq, hoffset]
    refine hunbroken.slice fun x hx y hy => ?_
    rw [head?_map, map_eq_some_iff] at hx
    obtain ⟨first, hfirst', rfl⟩ := hx
    obtain ⟨f, hf, rfl⟩ := mem_map.mp hy
    exact hfirst first hfirst' f hf

theorem forall₂_encrypted {es : List Frame} (h : List.Forall₂ SameMessage fs gs)
    (he : List.Forall₂ (Encrypted key.encrypt) gs es) :
    List.Forall₂ (Encrypted key.encrypt) fs es := by
  induction h generalizing es with
  | nil => exact he
  | cons h _ ih =>
    cases he with
    | cons he hrest =>
      refine .cons ⟨he.id.trans h.id, he.offsetDelta.trans h.offsetDelta,
        he.timestampDelta.trans h.timestampDelta, ?_, ?_⟩ (ih hrest)
      · rw [h.payload]
        exact he.payload
      · rw [h.userHeaders]
        exact he.userHeaders

/-! ## The steps -/

theorem IsBatch.carries (h : IsBatch xxh3 record batch) : Carries xxh3 record batch.frames :=
  carries_of_decode h.1 h.2

theorem isBatch_convertRequestMessage {partitionId : UInt64}
    (h : convertRequestMessage xxh3 partitionId body .compute = .ok record) :
    ∃ batch, IsBatch xxh3 record batch := by
  cases hdecode : decodeBatch? xxh3 body with
  | ok batch =>
    simp only [convertRequestMessage, hdecode] at h
    split_ifs at h with hok
    cases h
    simp only [not_or, not_not] at hok
    exact ⟨batch, decodeBatch?_eq_ok.mp hdecode, hok.2.1⟩
  | error e =>
    simp only [convertRequestMessage, hdecode] at h
    obtain ⟨admitted, hadmitted, hcompact⟩ := bind_eq_ok.mp h
    obtain ⟨batchBytes, hbatch, -, hlen⟩ := admitWireRequest_eq_ok hadmitted
    obtain ⟨hheader, -, -, ⟨hcount, hcovered⟩, hverify⟩ := decodeBatchSliceWith_eq_ok.mp hbatch
    simp only [compactWireRequest, bind_eq_ok, require_eq_ok, exists_const, Except.ok.injEq]
      at hcompact
    obtain ⟨-, rfl⟩ := hcompact
    have hfits : Header.Fits { admitted.batch.header with partitionId := partitionId.toNat } := by
      have hfits := Header.fits_iff.mp (Header.fits_of_decode hheader)
      exact Header.fits_iff.mpr ⟨toNat_lt_field _, hfits.2⟩
    have hsealed := decode_sealed hfits (length_blob hbatch hlen) hcount hcovered (hverify rfl).1
    exact ⟨_, hsealed.1, hsealed.2⟩

/-- A sealed record passes admission as it is. -/
theorem convertRequestMessage_isBatch {partitionId : UInt64} {checksum : ChecksumMode}
    {canonical : Bytes} (hbatch : IsBatch xxh3 record batch)
    (h : convertRequestMessage xxh3 partitionId record checksum = .ok canonical) :
    canonical = record := by
  rw [convertRequestMessage, decodeBatch?_eq_ok.mpr hbatch.1] at h
  dsimp only at h
  split_ifs at h
  exact (Except.ok.inj h).symm

theorem frameOffset_lt_of_selects {header : Header} {query : MessageLookup} {f g : Frame}
    (hf : ¬ selectsFrame header query f = true) (hg : selectsFrame header query g = true) :
    frameOffset header f < frameOffset header g := by
  by_contra hle
  exact hf (selects_mono hg (not_lt.mp hle))

/-- **What a poll takes of an unbroken batch**: the whole of it, or a slice in which every frame
matches. -/
theorem filter_eq_self_of_unbroken {header : Header} {query : MessageLookup}
    {pre chosen post : List Frame} (h : Unbroken ((pre ++ chosen ++ post).map (frameOffset header)))
    (hspans : Spans (selectsFrame header query) pre chosen) (hpart : ¬ (pre = [] ∧ post = [])) :
    chosen.filter (selectsFrame header query) = chosen := by
  refine filter_eq_self.mpr fun f hf => ?_
  by_contra hnot
  obtain ⟨first, hfirst⟩ := ne_none_iff_exists'.mp (mt head?_eq_none_iff.mp (ne_nil_of_mem hf))
  obtain ⟨last, hlast⟩ := ne_none_iff_exists'.mp (mt getLast?_eq_none_iff.mp (ne_nil_of_mem hf))
  rw [map_append, map_append] at h
  have hle := h _ _ _ (frameOffset header first) (frameOffset header last) rfl
    (by simpa [or_iff_not_and_not] using hpart) (by rw [head?_map, hfirst]; rfl)
    (by rw [getLast?_map, hlast]; rfl) (fun x hx => ?_) _ (mem_map_of_mem hf)
  · rcases min_le_iff.mp hle with hle | hle
    · exact absurd hle (not_le.mpr (frameOffset_lt_of_selects hnot (hspans.first first hfirst)))
    · exact absurd hle (not_le.mpr (frameOffset_lt_of_selects hnot (hspans.last last hlast)))
  · obtain ⟨g, hg, rfl⟩ := mem_map.mp hx
    have hg := filter_eq_nil_iff.mp hspans.before g hg
    exact lt_min (frameOffset_lt_of_selects hg (hspans.first first hfirst))
      (frameOffset_lt_of_selects hg (hspans.last last hlast))

theorem part_select {query : MessageLookup} {integrity : Integrity} {alreadyMatched : Nat}
    {selection : SelectedBatchSlice} {tail : Bytes} {decoded : BatchRef}
    (h : Part xxh3 key body contents record batch)
    (hdecode : decodeBatchSliceWith xxh3 (record ++ tail) integrity = .ok decoded)
    (hselect : selectBatchSlice decoded query alreadyMatched = some selection) :
    ∃ cut, Part xxh3 key body contents (selectedRecord xxh3 (record ++ tail) decoded selection) cut := by
  obtain rfl : batch = decoded := Except.ok.inj
    ((decodeBatchSliceWith_append h.isBatch.1 h.isBatch.2 tail).symm.trans hdecode)
  obtain ⟨pre, chosen, post, hframes, hspans, -, hslice⟩ :=
    selectBatchSlice_sliceOf h.isBatch.tiled.1 query alreadyMatched
  obtain ⟨last, -, rfl⟩ := map_eq_some_iff.mp (hslice.symm.trans hselect)
  obtain ⟨part, cut, hcut, hadded⟩ := @slices_pushSelected _ _ _ _ _ _ {} tail h.isBatch _
    (frameOffset batch.header last) hframes fun hpart =>
      congrArg length (filter_eq_self_of_unbroken (hframes ▸ h.unbroken) hspans hpart)
  rw [selectedRecord, hadded]
  exact ⟨cut, h.slice hframes hcut fun first hfirst f hf => frameOffset_lt_of_selects
    (filter_eq_nil_iff.mp hspans.before f hf) (hspans.first first hfirst)⟩

theorem part_limit {limited : Bytes} {fragments : List Bytes}
    {maxBytes budget place : Nat} {result : LimitedRead}
    (h : Part xxh3 key body contents record batch)
    (hrecord : (pieces fragments)[place]? = some record)
    (hlimit : limitBytes xxh3 fragments maxBytes budget = .ok result)
    (hlimited : (pieces result.fragments)[place]? = some limited) :
    ∃ cut, Part xxh3 key body contents limited cut := by
  obtain ⟨n, hall⟩ := cuts_limitBytes hlimit
  obtain ⟨hplace, rfl⟩ := List.getElem?_eq_some_iff.mp hlimited
  have hplace' : place < ((pieces fragments).take n).length := hall.length_eq ▸ hplace
  have hcuts := hall.get hplace' hplace
  simp only [get_eq_getElem, getElem_take] at hcuts
  obtain ⟨_, rfl⟩ := List.getElem?_eq_some_iff.mp hrecord
  obtain ⟨chosen, post, cut, hframes, hslice⟩ := hcuts batch h.isBatch
  exact ⟨cut, h.slice (show batch.frames = [] ++ chosen ++ post from hframes) hslice fun _ _ _ hf => by
    cases hf⟩

theorem sameMessage_of_decrypted {f g d : Frame} (h : Encrypted key.encrypt f g)
    (hd : Encrypted (fun _ => key.decrypt) g d) : SameMessage f d := by
  refine ⟨hd.id.trans h.id, hd.offsetDelta.trans h.offsetDelta,
    hd.timestampDelta.trans h.timestampDelta, ?_, ?_⟩
  · obtain ⟨call, hcipher⟩ := h.payload
    obtain ⟨_, hplain⟩ := hd.payload
    exact some.inj ((key.inverse hcipher).symm.trans hplain)
  · obtain ⟨hf, hg⟩ | ⟨-, call, hcipher⟩ := h.userHeaders
    · obtain ⟨-, hplain⟩ | ⟨hne, -⟩ := hd.userHeaders
      · rw [hf, hplain]
      · exact absurd hg hne
    · have hplain := key.inverse hcipher
      obtain ⟨hempty, -⟩ | ⟨-, _, hcalled⟩ := hd.userHeaders
      · rw [hempty, key.decrypt_nil] at hplain
        exact nomatch hplain
      · exact some.inj (hplain.symm.trans hcalled)

theorem forall₂_sameMessage_of_decrypted {ds : List Frame}
    (h : List.Forall₂ (Encrypted key.encrypt) fs gs)
    (hd : List.Forall₂ (Encrypted fun _ => key.decrypt) gs ds) :
    List.Forall₂ SameMessage fs ds := by
  induction h generalizing ds with
  | nil => cases hd; exact .nil
  | cons h _ ih =>
    cases hd with
    | cons hd hrest => exact .cons (sameMessage_of_decrypted h hd) (ih hrest)

theorem part_decrypt {decrypted : Bytes} (h : Part xxh3 key body .encrypted record batch)
    (hdecrypt : decryptBatchRecord xxh3 key.decrypt record = .ok decrypted) :
    ∃ cut, Part xxh3 key body .plain decrypted cut := by
  simp only [decryptBatchRecord, bind_eq_ok, require_eq_ok, exists_const, Except.ok.injEq,
    mapError_eq_ok, decryptFrames] at hdecrypt
  obtain ⟨decoded, hdecode, -, blob, hblob, hsize, rfl⟩ := hdecrypt
  obtain rfl : batch = decoded := by
    have happend := @decodeBatchSliceWith_append _ _ .layoutOnly _ h.isBatch.1 h.isBatch.2 []
    rw [append_nil] at happend
    exact Except.ok.inj (happend.symm.trans hdecode)
  obtain ⟨hheader, -, -, ⟨hcount, -⟩, -⟩ := decodeBatchSliceWith_eq_ok.mp hdecode
  obtain ⟨encoded, hflat, hrecoded, hverified⟩ :=
    encryptFrames_eq_ok (fun f hf => fits_of_mem_records hf) hblob
  obtain ⟨b, hb, hlen, hframes, hbase⟩ := decode_reencoded (Header.fits_of_decode hheader) hflat
    (hcount.symm.trans hrecoded.length_eq) hverified (by omega)
  obtain ⟨run, hinfix, hall⟩ := h.run
  refine ⟨b, ⟨hb, hlen⟩, ⟨run, hinfix, ?_⟩, ?_⟩
  · rw [hframes]
    exact forall₂_sameMessage_of_decrypted hall hrecoded
  -- the offsets of the frames are those before
  · have hoffsets (bt : BatchRef) : bt.frames.map (frameOffset bt.header) =
        (offsetDeltas bt.frames).map fun d => (bt.header.baseOffset + d) % 2 ^ 64 := by
      rw [offsetDeltas, List.map_map]
      rfl
    have hunbroken := h.unbroken
    rw [hoffsets] at hunbroken ⊢
    rw [hbase, hframes, offsetDeltas_recoded hrecoded]
    exact hunbroken

/-! ## Whole chains -/

theorem Prepares.whole (h : Prepares xxh3 key body stage contents record) :
    Whole xxh3 key body contents record ∧ (stage ≠ .unsealed → ∃ batch, IsBatch xxh3 record batch) := by
  induction h with
  | @admitted partitionId checksum record hconvert =>
    refine ⟨⟨_, carries_convertRequestMessage hconvert, forall₂_sameMessage _⟩, fun hsealed => ?_⟩
    cases checksum with
    | compute => exact isBatch_convertRequestMessage hconvert
    | skip => exact absurd rfl hsealed
  | encrypt _ hencrypt ih =>
    obtain ⟨⟨frames, hcarries, hall⟩, -⟩ := ih
    obtain ⟨b, hdecode, hlen, hrecoded⟩ := decode_encryptBatchRequest hcarries hencrypt
    have hbatch : IsBatch xxh3 _ b := ⟨hdecode, hlen⟩
    exact ⟨⟨_, hbatch.carries, forall₂_encrypted hall hrecoded⟩, fun _ => ⟨b, hbatch⟩⟩
  | readmit _ hconvert ih =>
    obtain ⟨batch, hbatch⟩ := ih.2 (by decide)
    obtain rfl := convertRequestMessage_isBatch hbatch hconvert
    exact ih
  | stamp _ hstamp ih =>
    obtain ⟨⟨frames, hcarries, hall⟩, -⟩ := ih
    obtain ⟨b, hdecode, hlen, rfl, -, -, -, rfl⟩ := decode_stampPrepareForPersistence hcarries hstamp
    have hbatch : IsBatch xxh3 _ b := ⟨hdecode, hlen⟩
    exact ⟨⟨_, hbatch.carries, hall⟩, fun _ => ⟨b, hbatch⟩⟩

theorem Prepares.isBatch (h : Prepares xxh3 key body stage contents record) (hsealed : stage ≠ .unsealed) :
    ∃ batch, IsBatch xxh3 record batch ∧
      List.Forall₂ (contents.Conveys key) (producerFrames xxh3 body) batch.frames := by
  obtain ⟨⟨frames, hcarries, hall⟩, hbatch⟩ := h.whole
  obtain ⟨batch, hbatch⟩ := hbatch hsealed
  refine ⟨batch, hbatch, ?_⟩
  rwa [hcarries.records.symm.trans hbatch.carries.records] at hall

theorem Polls.part {stored : Bytes} {contents' : Contents}
    (hstored : Part xxh3 key body contents stored batch)
    (h : Polls xxh3 key stored contents contents' record) :
    ∃ batch, Part xxh3 key body contents' record batch := by
  induction h with
  | whole => exact ⟨batch, hstored⟩
  | select tail _ hdecode hselect ih =>
    obtain ⟨batch, hpart⟩ := ih
    exact part_select hpart hdecode hselect
  | limit _ hrecord hlimit hlimited ih =>
    obtain ⟨batch, hpart⟩ := ih
    exact part_limit hpart hrecord hlimit hlimited
  | decrypt _ hdecrypt ih =>
    obtain ⟨batch, hpart⟩ := ih
    exact part_decrypt hpart hdecrypt

/-! ## Broken offsets -/

theorem filter_eq_self_of_slice {sel : Frame → Bool} {pre run post pre' post' : List Frame}
    (hspans : Spans sel pre run) (hpre' : pre'.filter sel = [])
    (h : pre ++ run ++ post = pre' ++ run.filter sel ++ post') : run.filter sel = run := by
  cases run with
  | nil => rfl
  | cons first tail =>
    have hfirst := hspans.first first rfl
    have hbefore : ∀ {l rest : List Frame}, l.filter sel = [] →
        (l ++ first :: rest).takeWhile (fun f => !sel f) = l := by
      intro l rest hl
      rw [takeWhile_append_of_pos (by simpa using hl), takeWhile_cons_of_neg (by simp [hfirst]),
        append_nil]
    obtain rfl : pre = pre' := by
      have hwhile := congrArg (takeWhile fun f => !sel f) h
      rw [filter_cons_of_pos hfirst] at hwhile
      simp only [append_assoc, cons_append] at hwhile
      rwa [hbefore hspans.before, hbefore hpre'] at hwhile
    rw [append_assoc, append_assoc, append_cancel_left_eq] at h
    obtain ⟨rest, hrest⟩ := prefix_of_prefix_length_le ⟨post', h.symm⟩ ⟨post, rfl⟩
      (length_filter_le sel (first :: tail))
    have hnone : rest.filter sel = [] := by
      have hfilter := congrArg (filter sel) hrest
      rw [filter_append, List.filter_filter] at hfilter
      simpa using hfilter
    -- what is left over would end with the last frame, which matches
    rcases eq_nil_or_concat rest with rfl | ⟨rest, last, rfl⟩
    · rw [append_nil] at hrest
      exact hrest
    · have hlast := hspans.last last (by rw [← hrest]; simp [getLast?_append])
      exact absurd hlast (filter_eq_nil_iff.mp hnone last (by simp))

theorem length_eq_of_decode_sliced {pre chosen post : List Frame} {matched : Nat} {b : BatchRef}
    (hbatch : IsBatch xxh3 record batch) (hframes : batch.frames = pre ++ chosen ++ post)
    (hmatched : matched ≤ chosen.length)
    (h : decodeBatchSlice xxh3 ((slicedHeader xxh3 batch.header matched
      (chosen.flatMap Frame.bytes)).encode ++ chosen.flatMap Frame.bytes) = .ok b) :
    chosen.length = matched := by
  obtain ⟨hheader, -, hb, htiled, -⟩ := decodeBatchSliceWith_eq_ok.mp h
  have hfits := fits_slicedHeader hbatch
    (show matched ≤ batch.frames.length by rw [hframes, length_append, length_append]; omega)
    (length_flatMap_le_blob hbatch hframes)
  rw [Header.decode_encode hfits (Nat.le_add_right _ _), Except.ok.injEq] at hheader
  rw [← hheader, BatchRef.ofBody_encode rfl] at hb
  have hrecords := (@records_flatMap_bytes batch.blob chosen fun f hf => by
    rw [← BatchRef.frames, hframes]
    simp [hf]).1
  have hcount := htiled.1
  rwa [hb, BatchRef.frames, hrecords] at hcount

/-- A batch whose offsets are broken has a poll that no reader accepts. -/
theorem exists_broken_poll {stored : Bytes} (hbatch : IsBatch xxh3 stored batch)
    (h : ¬ Unbroken (batch.frames.map (frameOffset batch.header))) :
    ∃ query selection, selectBatchSlice batch query 0 = some selection ∧
      ∀ b, decodeBatchSlice xxh3 (selectedRecord xxh3 stored batch selection) ≠ .ok b := by
  simp only [Unbroken, not_forall, not_le] at h
  obtain ⟨_, _, _, first, last, hsplit, hends, hfirst, hlast, hbelow, _, hmem, hlt⟩ := h
  obtain ⟨_, post, hframes, hleft, rfl⟩ := map_eq_append_iff.mp hsplit
  obtain ⟨pre, run, rfl, rfl, rfl⟩ := map_eq_append_iff.mp hleft
  obtain ⟨gap, hgap, rfl⟩ := mem_map.mp hmem
  -- from the smaller of the two on, as many as match up to the last
  generalize hstart : min first last = start at *
  let query : MessageLookup := .offset start
    (run.filter fun f => start ≤ frameOffset batch.header f).length (2 ^ 64 - 1)
  generalize hsel : selectsFrame batch.header query = sel
  have hselects : ∀ f, sel f = decide (start ≤ frameOffset batch.header f) := fun f => by rw [← hsel]; rfl
  have hcount : query.count = (run.filter sel).length := by rw [← hsel]; rfl
  have hrun : Spans sel pre run := by
    refine ⟨by simpa [hselects] using hbelow, fun f hf => ?_, fun f hf => ?_⟩
    · rw [head?_map, hf, map_some, some.injEq] at hfirst
      simp [hselects, hfirst, ← hstart]
    · rw [getLast?_map, hf, map_some, some.injEq] at hlast
      simp [hselects, hlast, ← hstart]
  obtain ⟨pre', chosen, post', hframes', hspans, hfilter, hselect⟩ :=
    selectBatchSlice_sliceOf hbatch.tiled.1 query 0
  rw [hsel] at hspans hfilter hselect
  rw [visibleFrames_max rfl, hframes, filter_append, filter_append, hrun.before, nil_append, Nat.sub_zero, hcount,
    take_left] at hfilter
  have hnonempty : chosen ≠ [] := by
    rintro rfl
    cases run with
    | nil => cases hgap
    | cons f run => simp [hrun.first f rfl] at hfilter
  obtain ⟨tail, htail⟩ := ne_none_iff_exists'.mp (mt getLast?_eq_none_iff.mp hnonempty)
  refine ⟨query, _, by rw [hselect, sliceOf, htail, map_some], fun b hb => ?_⟩
  have hbytes := @flatMap_pushSelected _ _ _ _ _ _ {} [] hbatch (chosen.filter sel).length
    (frameOffset batch.header tail) hframes'
  rw [append_nil] at hbytes
  rw [selectedRecord, hbytes, flatMap_nil, nil_append] at hb
  by_cases hwhole : pre' = [] ∧ post' = []
  · -- a slice that is the whole batch starts and ends with a match
    obtain ⟨rfl, rfl⟩ := hwhole
    obtain rfl : chosen = pre ++ run ++ post := by simpa [hframes] using hframes'.symm
    rcases hends with hends | hends
    · cases pre with
      | nil => exact hends rfl
      | cons f pre => exact filter_eq_nil_iff.mp hrun.before f mem_cons_self (hspans.first f rfl)
    · rw [filter_append, filter_append, hrun.before, nil_append] at hfilter
      have hnone : post.filter sel = [] := append_right_eq_self.mp hfilter
      have hmem : tail ∈ post := by
        rw [getLast?_append_of_ne_nil _ (by simpa using hends)] at htail
        exact mem_of_getLast? htail
      exact filter_eq_nil_iff.mp hnone tail hmem (hspans.last tail htail)
  · rw [if_neg hwhole] at hb
    have hlength := length_eq_of_decode_sliced hbatch hframes' (length_filter_le ..) hb
    have hchosen : chosen.filter sel = chosen :=
      filter_eq_self.mpr (length_filter_eq_length_iff.mp hlength.symm)
    have hall := filter_eq_self_of_slice hrun hspans.before
      (by rw [← hfilter, hchosen, ← hframes, ← hframes'])
    have hgap := filter_eq_self.mp hall gap hgap
    rw [hselects, decide_eq_true_eq] at hgap
    omega

/-- **Every rewrite keeps a batch valid and keeps its messages**, until it is stored. Every poll of the
stored batch does so too exactly if its offsets are unbroken. -/
theorem rewritten_batch_exact (xxh3 : Bytes → UInt64) (key : Encryptor) (body : Bytes) :
    (∀ stage contents record, Prepares xxh3 key body stage contents record → stage ≠ .unsealed →
      Exact xxh3 key body contents record) ∧
    ∀ contents stored batch, Prepares xxh3 key body .stored contents stored →
      decodeBatchSlice xxh3 stored = .ok batch →
      ((∀ contents' record, Polls xxh3 key stored contents contents' record →
          Exact xxh3 key body contents' record) ↔
        Unbroken (batch.frames.map (frameOffset batch.header))) := by
  refine ⟨fun stage contents record h hsealed => ?_, fun contents stored batch h hdecode => ?_⟩
  · obtain ⟨batch, hbatch, hall⟩ := h.isBatch hsealed
    exact ⟨batch, hbatch.1, _, infix_rfl, hall⟩
  · obtain ⟨b, hbatch, hall⟩ := h.isBatch (by decide)
    obtain rfl : b = batch := Except.ok.inj (hbatch.1.symm.trans hdecode)
    constructor
    · intro hexact
      by_contra hbroken
      obtain ⟨query, selection, hselect, hrefused⟩ := exists_broken_poll hbatch hbroken
      have hpolled := @Polls.select xxh3 key stored contents _ _ .verify _ _ _ _ [] .whole
        (by rwa [append_nil]) hselect
      rw [append_nil] at hpolled
      obtain ⟨cut, hcut, -⟩ := hexact _ _ hpolled
      exact hrefused cut hcut
    · intro hunbroken contents' record hpolls
      obtain ⟨cut, hpart⟩ := Polls.part ⟨hbatch, ⟨_, infix_rfl, hall⟩, hunbroken⟩ hpolls
      exact ⟨cut, hpart.isBatch.1, hpart.run⟩

end

/-! ## Concrete chains -/

/-- Encryption for concrete chains: one byte in front. -/
def markEncryptor : Encryptor where
  encrypt _ plain := some (0 :: plain)
  decrypt := List.tail?
  inverse h := by
    cases h
    rfl
  decrypt_nil := rfl

/-- Admission and stamping of the empty messages with these deltas. -/
def storedRecord (deltas : List Nat) : Option (Bytes × BatchRef) := do
  let canonical ← (convertRequestMessage byteSum 7 (produceRequest deltas) .skip).toOption
  let (stored, _) ← (stampPrepareForPersistence byteSum canonical 0 0).toOption
  let batch ← (decodeBatchSlice byteSum stored).toOption
  return (stored, batch)

def polledRecord (deltas : List Nat) (query : MessageLookup) : Option Bytes := do
  let (stored, batch) ← storedRecord deltas
  let selection ← selectBatchSlice batch query 0
  return selectedRecord byteSum stored batch selection

theorem prepares_storedRecord {deltas : List Nat} {stored : Bytes} {batch : BatchRef}
    (h : storedRecord deltas = some (stored, batch)) :
    Prepares byteSum markEncryptor (produceRequest deltas) .stored .plain stored ∧
      decodeBatchSlice byteSum stored = .ok batch := by
  simp only [storedRecord, Option.bind_eq_bind, Option.bind_eq_some_iff, toOption_eq_some,
    Prod.exists, Option.pure_def, Option.some.injEq, Prod.mk.injEq] at h
  obtain ⟨canonical, hconvert, _, header, hstamp, _, hdecode, rfl, rfl⟩ := h
  exact ⟨.stamp (.admitted hconvert) hstamp, hdecode⟩

theorem polls_polledRecord {deltas : List Nat} {query : MessageLookup} {record : Bytes}
    (h : polledRecord deltas query = some record) : ∃ stored batch,
    storedRecord deltas = some (stored, batch) ∧
      Polls byteSum markEncryptor stored .plain .plain record := by
  simp only [polledRecord, Option.bind_eq_bind, Option.bind_eq_some_iff, Prod.exists, Option.pure_def,
    Option.some.injEq] at h
  obtain ⟨stored, batch, hstored, selection, hselect, rfl⟩ := h
  have hselected := @Polls.select byteSum markEncryptor stored .plain _ _ .verify _ _ _ _ [] .whole
    (by rw [append_nil]; exact (prepares_storedRecord hstored).2) hselect
  rw [append_nil] at hselected
  exact ⟨stored, batch, hstored, hselected⟩

/-- Of four messages with the deltas 5, 0, 6 and 7 a poll for two from offset 5 on takes the bytes of
the first three behind a header that counts two, which no reader accepts. -/
theorem unordered_deltas_break_slice :
    ∃ stored record, Prepares byteSum markEncryptor (produceRequest [5, 0, 6, 7]) .stored .plain stored ∧
      Polls byteSum markEncryptor stored .plain .plain record ∧
      (decodeBatchSlice byteSum record).toOption = none := by
  have hbroken : (polledRecord [5, 0, 6, 7] (.offset 5 2 9)).map
      (fun record => (decodeBatchSlice byteSum record).toOption) = some none := by decide +kernel
  obtain ⟨record, hrecord, hnone⟩ := map_eq_some_iff.mp hbroken
  obtain ⟨stored, batch, hstored, hpolls⟩ := polls_polledRecord hrecord
  exact ⟨stored, record, (prepares_storedRecord hstored).1, hpolls, hnone⟩

/-- A poll for two of four messages whose deltas ascend with holes. -/
theorem rewritten_slice_exact :
    ∃ record, polledRecord [0, 2, 5, 9] (.offset 1 2 9) = some record ∧
      Exact byteSum markEncryptor (produceRequest [0, 2, 5, 9]) .plain record := by
  have hsome : (polledRecord [0, 2, 5, 9] (.offset 1 2 9)).isSome = true := by decide +kernel
  obtain ⟨record, hrecord⟩ := isSome_iff_exists.mp hsome
  obtain ⟨stored, batch, hstored, hpolls⟩ := polls_polledRecord hrecord
  obtain ⟨hprepares, hdecode⟩ := prepares_storedRecord hstored
  have hoffsets : (storedRecord [0, 2, 5, 9]).map (fun x => x.2.frames.map (frameOffset x.2.header)) =
      some [0, 2, 5, 9] := by decide +kernel
  rw [hstored, map_some, some.injEq] at hoffsets
  have hunbroken : Unbroken (batch.frames.map (frameOffset batch.header)) :=
    unbroken_of_ascending (by rw [hoffsets]; decide)
  exact ⟨record, hrecord, ((rewritten_batch_exact byteSum markEncryptor _).2 _ _ _ hprepares
    hdecode).mpr hunbroken _ _ hpolls⟩

end Iggy.Poll
