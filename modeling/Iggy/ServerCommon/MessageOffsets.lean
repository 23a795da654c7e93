import Mathlib.Data.List.Forall2
import Iggy.ServerCommon.SendMessages

/-!
# The offsets of stored messages

The offset of a stored message is the batch's base offset plus the delta its producer wrote into the
frame. Admission never reads the deltas, and the re-encoding with ciphertext copies them. So the
messages of a stored batch have the offsets of the batch's range exactly when the producer's deltas
count up from zero, and otherwise two messages of a partition can share one.
-/

namespace Iggy

open List Lib Batch MessageHeader Except

/-- `append_stamped_messages` over a run of requests, as far as it assigns offsets: each batch is
stamped with the next offset of the partition, or the run fails. -/
def storeBatches (xxh3 : Bytes → UInt64)
    (encryptor : Option (Nat → Bytes → Option Bytes)) (partitionId : UInt64) :
    Nat → List (Bytes × UInt64) → Except SendError (List Bytes)
  | _, [] => .ok []
  | next, (body, timestamp) :: rest => do
    let canonical ← admitSendMessages xxh3 encryptor partitionId body
    require (next < 2 ^ 64) .cannotAppendMessage
    let (stored, header) ← stampPrepareForPersistence xxh3 canonical (.ofNat next) timestamp
    require (header.messageCount ≠ 0 ∧ next + (header.messageCount - 1) < 2 ^ 64)
      .cannotAppendMessage
    let tail ← storeBatches xxh3 encryptor partitionId (next + header.messageCount) rest
    .ok (stored :: tail)

section

variable (xxh3 : Bytes → UInt64)

/-- The frames a producer sent, in whichever of the two forms. -/
def producerFrames (body : Bytes) : List Frame :=
  match decodeBatch? xxh3 body with
  | .ok batch => batch.frames
  | .error _ =>
    match admitWireRequest xxh3 body with
    | .ok admitted => admitted.batch.frames
    | .error _ => []

def offsetDeltas (frames : List Frame) : List Nat := frames.map (·.header.offsetDelta)

/-- The producer numbered its messages from zero. -/
def SequentialDeltas (body : Bytes) : Prop :=
  offsetDeltas (producerFrames xxh3 body) = range (producerFrames xxh3 body).length

instance (body : Bytes) : Decidable (SequentialDeltas xxh3 body) :=
  inferInstanceAs (Decidable (_ = _))

/-- The offsets that readers of a stored batch see. -/
def storedOffsets (stored : Bytes) : List Nat :=
  match decodeBatchSlice xxh3 stored with
  | .ok batch => messageOffsets batch
  | .error _ => []

/-- A stored batch that readers accept, whose messages have the offsets of its range in order. -/
def ExactOffsets (stored : Bytes) : Prop :=
  ∃ batch, decodeBatchSlice xxh3 stored = .ok batch ∧
    messageOffsets batch = range' batch.header.baseOffset batch.header.messageCount

/-- A body that is one batch of these frames, which are verified. -/
structure Carries (body : Bytes) (frames : List Frame) : Prop where
  header : ∃ h, Header.decode body = .ok h ∧ body.length = h.batchLength ∧
    h.messageCount = frames.length
  records : framing.records (body.drop headerSize) = frames
  covered : framing.covered (body.drop headerSize) = (body.drop headerSize).length
  verified : ∀ f ∈ frames, f.expectedChecksum xxh3 = f.header.checksum

end

variable {xxh3 : Bytes → UInt64} {body stored : Bytes} {frames : List Frame}

/-! ## Headers that are written back -/

theorem toNat_lt_field (n : UInt64) : n.toNat < 256 ^ 8 := by
  have := n.toNat_lt
  omega

variable {h : Header} {blob : Bytes}

section Encode

variable (hfits : h.Fits) (hlen : h.batchLength = headerSize + blob.length)
  (hcount : (framing.records blob).length = h.messageCount)
  (hcovered : framing.covered blob = blob.length)
  (hverified : ∀ f ∈ framing.records blob, f.expectedChecksum xxh3 = f.header.checksum)

include hfits hlen hcount hcovered hverified

theorem carries_encode : Carries xxh3 (h.encode ++ blob) (framing.records blob) := by
  have hsize := h.length_encode
  have hdrop : (h.encode ++ blob).drop headerSize = blob := by rw [← hsize, drop_left]
  refine ⟨⟨h, Header.decode_encode hfits (by omega) blob, ?_, ?_⟩, ?_, ?_, ?_⟩
  · rw [length_append, hsize, hlen]
  · exact hcount.symm
  · rw [hdrop]
  · rw [hdrop, hcovered]
  · exact hverified

theorem decode_sealed :
    let sealed := { h with batchChecksum := calculateBatchChecksum xxh3 h blob }
    decodeBatchSlice xxh3 (sealed.encode ++ blob) = .ok ⟨sealed, blob⟩ ∧
      (sealed.encode ++ blob).length = sealed.batchLength := by
  intro sealed
  have hsealed : sealed.Fits := by
    rw [Header.fits_iff] at hfits ⊢
    exact ⟨hfits.1, hfits.2.1, hfits.2.2.1, hfits.2.2.2.1, hfits.2.2.2.2.1, toNat_lt_field _,
      hfits.2.2.2.2.2.2⟩
  refine ⟨decodeBatchSlice_encode hsealed hlen hcount hcovered hverified rfl, ?_⟩
  rw [length_append, Header.length_encode]
  exact hlen.symm

end Encode

variable {b : BatchRef}

theorem carries_of_decode (hd : decodeBatchSlice xxh3 body = .ok b)
    (hlen : body.length = b.header.batchLength) : Carries xxh3 body b.frames := by
  obtain ⟨hheader, -, hb, ⟨hcount, hcovered⟩, hverify⟩ := decodeBatchSliceWith_eq_ok.mp hd
  have hblob : b.blob = body.drop headerSize := by
    rw [congrArg BatchRef.blob hb, BatchRef.blob_ofBody, take_of_length_le]
    rw [length_drop, hlen, Header.blobLen]
  have hframes : b.frames = framing.records (body.drop headerSize) := by
    rw [BatchRef.frames, hblob]
  exact ⟨⟨b.header, hheader, hlen, hcount.symm⟩, hframes.symm, by rw [← hblob, hcovered],
    (hverify rfl).1⟩

theorem decodeBatch?_eq_ok :
    decodeBatch? xxh3 body = .ok b ↔ decodeBatchSlice xxh3 body = .ok b := mapError_eq_ok

/-! ## Admission keeps the frames -/

theorem admitWireRequest_eq_ok {admitted : AdmittedBatch}
    (h : admitWireRequest xxh3 body = .ok admitted) :
    ∃ batchBytes, decodeBatchSlice xxh3 batchBytes = .ok admitted.batch ∧
      admitted.batch.header.messageCount ≠ 0 ∧
      batchBytes.length = admitted.batch.header.batchLength := by
  simp only [admitWireRequest, bind_eq_ok, require_eq_ok, exists_const, decodeBatch?_eq_ok,
    Prod.exists] at h
  obtain ⟨-, -, metadata, consumed, -, -, batch, hdecode, ⟨hcount, -, hlen⟩, ⟨⟩⟩ := h
  exact ⟨_, hdecode, hcount, hlen⟩

theorem length_blob (hd : decodeBatchSlice xxh3 body = .ok b)
    (hlen : body.length = b.header.batchLength) :
    b.header.batchLength = headerSize + b.blob.length := by
  obtain ⟨-, -, hb, -, -⟩ := decodeBatchSliceWith_eq_ok.mp hd
  have hcover := headerSize_le_batchLength hd
  rw [congrArg BatchRef.blob hb, BatchRef.blob_ofBody, length_take, length_drop, hlen,
    Header.blobLen]
  omega

variable {partitionId : UInt64} {canonical : Bytes}

theorem carries_compactWireRequest {admitted : AdmittedBatch} {checksum : ChecksumMode}
    {batchBytes : Bytes} (hdecode : decodeBatchSlice xxh3 batchBytes = .ok admitted.batch)
    (hlen : batchBytes.length = admitted.batch.header.batchLength)
    (h : compactWireRequest xxh3 partitionId admitted checksum = .ok canonical) :
    Carries xxh3 canonical admitted.batch.frames := by
  obtain ⟨hheader, -, -, ⟨hcount, hcovered⟩, hverify⟩ := decodeBatchSliceWith_eq_ok.mp hdecode
  simp only [compactWireRequest, bind_eq_ok, require_eq_ok, exists_const, ok.injEq] at h
  obtain ⟨hsize, rfl⟩ := h
  have hfits := Header.fits_of_decode hheader
  have hblob := length_blob hdecode hlen
  -- the checksum is a hash or zero, so it fits its field either way
  have hcarries (sum : UInt64) : Carries xxh3 (Header.encode { admitted.batch.header with
      partitionId := partitionId.toNat, batchChecksum := sum.toNat } ++ admitted.batch.blob)
      admitted.batch.frames := by
    refine carries_encode ?_ hblob hcount hcovered (hverify rfl).1
    obtain ⟨-, hbase, hstamp, horigin, hlength, -, hmessages⟩ := Header.fits_iff.mp hfits
    exact Header.fits_iff.mpr ⟨toNat_lt_field _, hbase, hstamp, horigin, hlength, toNat_lt_field _,
      hmessages⟩
  cases checksum
  · exact hcarries _
  · exact hcarries 0

theorem carries_convertRequestMessage {checksum : ChecksumMode}
    (h : convertRequestMessage xxh3 partitionId body checksum = .ok canonical) :
    Carries xxh3 canonical (producerFrames xxh3 body) := by
  cases hdecode : decodeBatch? xxh3 body with
  | ok batch =>
    simp only [convertRequestMessage, producerFrames, hdecode] at h ⊢
    split_ifs at h with hok
    cases h
    simp only [not_or, not_not] at hok
    exact carries_of_decode (decodeBatch?_eq_ok.mp hdecode) hok.2.1
  | error e =>
    simp only [convertRequestMessage, producerFrames, hdecode] at h ⊢
    obtain ⟨admitted, hadmitted, hcompact⟩ := bind_eq_ok.mp h
    obtain ⟨batchBytes, hbatch, -, hlen⟩ := admitWireRequest_eq_ok hadmitted
    simp only [hadmitted]
    exact carries_compactWireRequest hbatch hlen hcompact

/-! ## Frames that are re-encoded -/

structure Encoded (xxh3 : Bytes → UInt64) (f : Frame) : Prop where
  read : ∀ tail, nextFrame (f.bytes ++ tail) = some f
  size : f.header.totalSize = f.bytes.length
  checksum : f.expectedChecksum xxh3 = f.header.checksum

theorem frameBytes_eq (xxh3 : Bytes → UInt64) (header : MessageHeader)
    (payload userHeaders : Bytes) :
    ∃ sum : UInt64, ∃ rest : Bytes, sum = xxh3 rest ∧
      frameBytes xxh3 header payload userHeaders = leBytes 8 sum.toNat ++ rest ∧
      frameBytes xxh3 header payload userHeaders =
        ({ header with checksum := sum.toNat } : MessageHeader).encode ++
          (payload ++ userHeaders) := by
  refine ⟨_, _, rfl, rfl, ?_⟩
  simp only [frameBytes, encode, fields, widths, packFields]
  rw [append_assoc (leBytes 8 header.checksum), append_assoc (leBytes 8 header.checksum),
    drop_left' (length_leBytes ..)]
  simp only [append_assoc]

theorem encoded_frameBytes {header : MessageHeader} {payload userHeaders : Bytes}
    (hfits : header.Fits) (hpayload : header.payloadLength = payload.length)
    (huser : header.userHeadersLength = userHeaders.length) :
    ∃ f : Frame, f.bytes = frameBytes xxh3 header payload userHeaders ∧
      (∃ sum, f.header = { header with checksum := sum }) ∧ f.payload = payload ∧
      f.userHeaders = userHeaders ∧ Encoded xxh3 f := by
  obtain ⟨sum, rest, hsum, hraw, hencode⟩ := frameBytes_eq xxh3 header payload userHeaders
  generalize frameBytes xxh3 header payload userHeaders = bytes at hraw hencode ⊢
  have hsealed : ({ header with checksum := sum.toNat } : MessageHeader).Fits := by
    simp only [MessageHeader.Fits, fields, widths, FieldsFit, forall₂_cons] at hfits ⊢
    exact ⟨toNat_lt_field _, hfits.2⟩
  have hlength : bytes.length = messageHeaderSize + userHeaders.length + payload.length := by
    rw [hencode, length_append, length_append, length_encode]
    omega
  have htotal : ({ header with checksum := sum.toNat } : MessageHeader).totalSize =
      bytes.length := by
    rw [hlength, totalSize, hpayload, huser]
  refine ⟨⟨{ header with checksum := sum.toNat }, payload, userHeaders, bytes⟩, rfl, ⟨_, rfl⟩, rfl,
    rfl, fun tail => ?_, htotal, ?_⟩
  · have hdecode : decode (bytes ++ tail) =
        .ok { header with checksum := sum.toNat } := by
      rw [hencode, append_assoc]
      exact decode_encode hsealed _
    have hfit : ¬ (bytes ++ tail).length < bytes.length := by
      rw [length_append]
      omega
    have hbody : (bytes ++ tail).drop messageHeaderSize = payload ++ (userHeaders ++ tail) := by
      rw [hencode, append_assoc, drop_left' (length_encode _), append_assoc]
    have hpart : (payload ++ (userHeaders ++ tail)).take header.payloadLength = payload :=
      take_left' hpayload.symm
    have hrest : ((payload ++ (userHeaders ++ tail)).drop header.payloadLength).take
        header.userHeadersLength = userHeaders := by
      rw [drop_left' hpayload.symm, take_left' huser.symm]
    simp only [nextFrame, hdecode, if_neg hfit, hbody, hpart, hrest, htotal, take_left]
  · show (xxh3 (bytes.drop 8)).toNat = sum.toNat
    rw [hraw, drop_left' (length_leBytes ..), hsum]

/-- `g` is `f` with other contents: its id and its deltas are the same. -/
structure Recoded (payload userHeaders : Bytes → Bytes → Prop) (f g : Frame) : Prop where
  id : g.header.id = f.header.id
  offsetDelta : g.header.offsetDelta = f.header.offsetDelta
  timestampDelta : g.header.timestampDelta = f.header.timestampDelta
  payload : payload f.payload g.payload
  userHeaders : userHeaders f.userHeaders g.userHeaders

theorem recoded_frameBytes {f : Frame} {payload userHeaders : Bytes} {p u}
    (hfits : f.header.Fits) (hpayload : payload.length < 2 ^ 32)
    (huser : userHeaders.length < 2 ^ 32) (hp : p f.payload payload)
    (hu : u f.userHeaders userHeaders) :
    ∃ g : Frame, g.bytes = frameBytes xxh3 { f.header with
        checksum := 0, userHeadersLength := userHeaders.length, payloadLength := payload.length }
        payload userHeaders ∧
      Recoded p u f g ∧ Encoded xxh3 g := by
  have hsized : MessageHeader.Fits { f.header with
      checksum := 0
      userHeadersLength := userHeaders.length
      payloadLength := payload.length } := by
    simp only [MessageHeader.Fits, fields, widths, FieldsFit, forall₂_cons] at hfits ⊢
    exact ⟨by decide, hfits.2.1, hfits.2.2.1, hfits.2.2.2.1, huser, hpayload, hfits.2.2.2.2.2.2⟩
  obtain ⟨g, hbytes, ⟨sum, hheader⟩, rfl, rfl, hencoded⟩ := encoded_frameBytes hsized rfl rfl
  exact ⟨g, hbytes, ⟨by rw [hheader], by rw [hheader], by rw [hheader], hp, hu⟩, hencoded⟩

section Encrypt

variable {encrypt : Nat → Bytes → Option Bytes} {index : Nat}

/-- What `encrypt` made of the contents of a frame. -/
abbrev Encrypted (encrypt : Nat → Bytes → Option Bytes) : Frame → Frame → Prop :=
  Recoded (fun plain cipher => ∃ call, encrypt call plain = some cipher) fun plain cipher =>
    plain = [] ∧ cipher = [] ∨ plain ≠ [] ∧ ∃ call, encrypt call plain = some cipher

theorem encryptBytes_eq_ok {call : Nat} {plain cipher : Bytes} :
    encryptBytes encrypt call plain = .ok cipher ↔ encrypt call plain = some cipher := by
  unfold encryptBytes
  cases encrypt call plain <;> simp

theorem encryptFrame_eq_ok {f : Frame} {bytes : Bytes} (hfits : f.header.Fits)
    (h : encryptFrame xxh3 encrypt index f = .ok bytes) :
    ∃ g : Frame, g.bytes = bytes ∧ Encrypted encrypt f g ∧ Encoded xxh3 g := by
  simp only [encryptFrame, bind_eq_ok, require_eq_ok, exists_const, ok.injEq,
    encryptBytes_eq_ok] at h
  obtain ⟨payload, hcipher, userHeaders, huser, ⟨hlen, hlenUser⟩, rfl⟩ := h
  refine recoded_frameBytes hfits hlen hlenUser ⟨_, hcipher⟩ ?_
  unfold encryptUserHeaders at huser
  split at huser
  case isTrue hempty => exact .inl ⟨isEmpty_iff.mp hempty, (ok.inj huser).symm⟩
  case isFalse hempty =>
    exact .inr ⟨fun h => hempty (isEmpty_iff.mpr h), _, encryptBytes_eq_ok.mp huser⟩

theorem encryptFrames_eq_ok {blob : Bytes} (hfits : ∀ f ∈ frames, f.header.Fits)
    (h : encryptFrames xxh3 encrypt index frames = .ok blob) :
    ∃ encoded : List Frame, blob = encoded.flatMap (·.bytes) ∧
      List.Forall₂ (Encrypted encrypt) frames encoded ∧ ∀ f ∈ encoded, Encoded xxh3 f := by
  induction frames generalizing index blob with
  | nil =>
    cases h
    exact ⟨[], rfl, .nil, nofun⟩
  | cons f rest ih =>
    simp only [encryptFrames, bind_eq_ok, ok.injEq] at h
    obtain ⟨bytes, hframe, tail, htail, rfl⟩ := h
    obtain ⟨g, rfl, hrecoded, hencoded⟩ := encryptFrame_eq_ok (hfits f mem_cons_self) hframe
    obtain ⟨encoded, rfl, hall, hencodeds⟩ :=
      ih (fun g hg => hfits g (mem_cons_of_mem f hg)) htail
    exact ⟨g :: encoded, rfl, .cons hrecoded hall, forall_mem_cons.mpr ⟨hencoded, hencodeds⟩⟩

end Encrypt

theorem offsetDeltas_recoded {p u} {fs gs : List Frame} (h : List.Forall₂ (Recoded p u) fs gs) :
    offsetDeltas gs = offsetDeltas fs := by
  induction h with
  | nil => rfl
  | cons h _ ih => rw [offsetDeltas, map_cons, h.offsetDelta, ← offsetDeltas, ih]; rfl

theorem decode_reencoded {encoded : List Frame} (hfits : h.Fits)
    (hblob : blob = encoded.flatMap Frame.bytes) (hcount : h.messageCount = encoded.length)
    (hall : ∀ f ∈ encoded, Encoded xxh3 f) (hsize : headerSize + blob.length < 256 ^ 8) :
    let sized := { h with batchLength := headerSize + blob.length }
    let record := Header.encode
      { sized with batchChecksum := calculateBatchChecksum xxh3 sized blob } ++ blob
    ∃ b, decodeBatchSlice xxh3 record = .ok b ∧ record.length = b.header.batchLength ∧
      b.frames = encoded ∧ b.header.baseOffset = h.baseOffset := by
  have hread : framing.records blob = encoded := by
    rw [hblob]
    exact (Framing.records_flatMap (fun f hf tail => (hall f hf).read tail)
      fun f hf => (hall f hf).size).trans (List.map_id _)
  have hcovered : framing.covered blob = blob.length := by
    rw [hblob]
    exact Framing.covered_flatMap (fun f hf tail => (hall f hf).read tail)
      fun f hf => (hall f hf).size
  have hsized : Header.Fits { h with batchLength := headerSize + blob.length } := by
    rw [Header.fits_iff] at hfits ⊢
    exact ⟨hfits.1, hfits.2.1, hfits.2.2.1, hfits.2.2.2.1, hsize, hfits.2.2.2.2.2⟩
  obtain ⟨hdecode, hlen⟩ := decode_sealed hsized rfl (by rw [hread, hcount]) hcovered <| by
    rw [hread]
    exact fun f hf => (hall f hf).checksum
  exact ⟨_, hdecode, hlen, hread, rfl⟩

theorem fits_of_mem_records {f : Frame} (h : f ∈ framing.records blob) : f.header.Fits := by
  obtain ⟨bs, hread⟩ := Framing.exists_next_of_mem h
  exact fits_of_decode (nextFrame_eq_some hread).1

theorem decode_encryptBatchRequest {encrypt : Nat → Bytes → Option Bytes}
    {encrypted : Bytes} (hcarries : Carries xxh3 body frames)
    (h : encryptBatchRequest xxh3 encrypt body = .ok encrypted) :
    ∃ b, decodeBatchSlice xxh3 encrypted = .ok b ∧ encrypted.length = b.header.batchLength ∧
      List.Forall₂ (Encrypted encrypt) frames b.frames := by
  simp only [encryptBatchRequest, bind_eq_ok, require_eq_ok, exists_const, ok.injEq,
    decodeBatch?_eq_ok] at h
  obtain ⟨batch, hdecode, blob, hblob, hsize, rfl⟩ := h
  obtain ⟨hheader, -, -, ⟨hcount, -⟩, -⟩ := decodeBatchSliceWith_eq_ok.mp hdecode
  obtain ⟨encoded, hflat, hrecoded, hall⟩ :=
    encryptFrames_eq_ok (fun f hf => fits_of_mem_records hf) hblob
  obtain ⟨b, hb, hlen, hframes, -⟩ := decode_reencoded (Header.fits_of_decode hheader) hflat
    (hcount.symm.trans hrecoded.length_eq) hall (by omega)
  -- the frames of the batch are those of the body it fills
  obtain ⟨h, hdecoded, hfill, -⟩ := hcarries.header
  obtain rfl : h = batch.header := ok.inj (hdecoded.symm.trans hheader)
  refine ⟨b, hb, hlen, ?_⟩
  rw [hframes, ← hcarries.records, (carries_of_decode hdecode hfill).records]
  exact hrecoded

theorem carries_admitSendMessages {encryptor : Option (Nat → Bytes → Option Bytes)}
    (h : admitSendMessages xxh3 encryptor partitionId body = .ok canonical) :
    ∃ frames, Carries xxh3 canonical frames ∧
      offsetDeltas frames = offsetDeltas (producerFrames xxh3 body) := by
  cases encryptor with
  | none => exact ⟨_, carries_convertRequestMessage h, rfl⟩
  | some encrypt =>
    simp only [admitSendMessages, bind_eq_ok] at h
    obtain ⟨plain, hplain, encrypted, hencrypted, hconvert⟩ := h
    obtain ⟨b, hdecode, -, hrecoded⟩ :=
      decode_encryptBatchRequest (carries_convertRequestMessage hplain) hencrypted
    have hcarries := carries_convertRequestMessage hconvert
    -- the second conversion meets a batch and lets it through
    have hframes : producerFrames xxh3 encrypted = b.frames := by
      rw [producerFrames, decodeBatch?_eq_ok.mpr hdecode]
    rw [hframes] at hcarries
    exact ⟨b.frames, hcarries, offsetDeltas_recoded hrecoded⟩

/-! ## Stored batches -/

theorem decode_stampPrepareForPersistence {baseOffset baseTimestamp : UInt64} {header : Header}
    (hcarries : Carries xxh3 body frames)
    (h : stampPrepareForPersistence xxh3 body baseOffset baseTimestamp = .ok (stored, header)) :
    ∃ b, decodeBatchSlice xxh3 stored = .ok b ∧ stored.length = b.header.batchLength ∧
      b.header = header ∧ header.baseOffset = baseOffset.toNat ∧
      header.messageCount = frames.length ∧ header.messageCount < 2 ^ 32 ∧ b.frames = frames := by
  obtain ⟨⟨h₀, hdecoded, hfill, hcount⟩, rfl, hcovered, hverified⟩ := hcarries
  simp only [stampPrepareForPersistence, bind_eq_ok, require_eq_ok, exists_const, ok.injEq,
    Prod.mk.injEq] at h
  obtain ⟨hlen, decoded, htake, rfl, rfl⟩ := h
  obtain rfl : decoded = h₀ := by
    have hdecode := (Header.decode_take hlen).mp (mapError_eq_ok.mp htake)
    exact ok.inj (hdecode.symm.trans hdecoded)
  have hfits := Header.fits_iff.mp (Header.fits_of_decode hdecoded)
  have hstamped : Header.Fits { decoded with
      baseOffset := baseOffset.toNat, baseTimestamp := baseTimestamp.toNat } :=
    Header.fits_iff.mpr ⟨hfits.1, toNat_lt_field _, toNat_lt_field _, hfits.2.2.2⟩
  have hlength : decoded.batchLength = headerSize + (body.drop headerSize).length := by
    rw [length_drop, ← hfill]
    omega
  obtain ⟨hdecode, hlen⟩ := decode_sealed hstamped hlength hcount.symm hcovered hverified
  exact ⟨_, hdecode, hlen, rfl, rfl, hcount, hfits.2.2.2.2.2.2, rfl⟩

theorem map_offset_eq_range'_iff {base : Nat} {deltas : List Nat}
    (hroom : base + deltas.length ≤ 2 ^ 64) (hcount : deltas.length < 2 ^ 32)
    (hsmall : ∀ d ∈ deltas, d < 2 ^ 32) :
    deltas.map (fun d => (base + d) % 2 ^ 64) = range' base deltas.length ↔
      deltas = range deltas.length := by
  have hget (i : Nat) (hi : i < deltas.length) :
      (base + deltas[i]) % 2 ^ 64 = base + i ↔ deltas[i] = i := by
    have hd := hsmall _ (getElem_mem hi)
    omega
  constructor
  · intro h
    refine ext_getElem (by simp) fun i hi _ => ?_
    rw [getElem_range]
    apply (hget i hi).mp
    have hi' : i < (deltas.map fun d => (base + d) % 2 ^ 64).length := by simpa using hi
    have hat := getElem_of_eq h hi'
    simpa [getElem_range'] using hat
  · intro h
    refine ext_getElem (by simp) fun i hi _ => ?_
    have hi' : i < deltas.length := by simpa using hi
    have hat : deltas[i] = i := by
      have hrange := getElem_of_eq h hi'
      simpa using hrange
    rw [getElem_map, getElem_range', Nat.one_mul]
    exact (hget i hi').mpr hat

theorem exactOffsets_iff {next : Nat} {timestamp : UInt64} {header : Header}
    (hcarries : Carries xxh3 canonical frames)
    (hsame : offsetDeltas frames = offsetDeltas (producerFrames xxh3 body))
    (hnext : next < 2 ^ 64)
    (hstamp : stampPrepareForPersistence xxh3 canonical (.ofNat next) timestamp =
      .ok (stored, header))
    (hroom : header.messageCount ≠ 0 ∧ next + (header.messageCount - 1) < 2 ^ 64) :
    (ExactOffsets xxh3 stored ↔ SequentialDeltas xxh3 body) ∧
      (SequentialDeltas xxh3 body →
        storedOffsets xxh3 stored = range' next header.messageCount) := by
  obtain ⟨b, hdecode, -, rfl, hbase, hcount, hsmall, hframes⟩ :=
    decode_stampPrepareForPersistence hcarries hstamp
  have hdeltas : offsetDeltas b.frames = offsetDeltas (producerFrames xxh3 body) := hframes ▸ hsame
  have hcount : b.header.messageCount = (offsetDeltas (producerFrames xxh3 body)).length := by
    rw [hcount, ← hsame, offsetDeltas, length_map]
  have hbase : b.header.baseOffset = next := by
    rw [hbase, UInt64.toNat_ofNat', Nat.mod_eq_of_lt hnext]
  have hoffsets : messageOffsets b =
      (offsetDeltas (producerFrames xxh3 body)).map fun d => (next + d) % 2 ^ 64 := by
    rw [← hdeltas, messageOffsets, offsetDeltas, map_map, hbase]
    rfl
  have hlength : (offsetDeltas (producerFrames xxh3 body)).length =
      (producerFrames xxh3 body).length := length_map _
  have hexact : messageOffsets b = range' next b.header.messageCount ↔
      SequentialDeltas xxh3 body := by
    have hdelta : ∀ d ∈ offsetDeltas (producerFrames xxh3 body), d < 2 ^ 32 := by
      rw [← hdeltas]
      intro d hd
      obtain ⟨f, hf, rfl⟩ := mem_map.mp hd
      have hfit := fits_of_mem_records hf
      simp only [MessageHeader.Fits, fields, widths, FieldsFit, forall₂_cons] at hfit
      exact hfit.2.2.1
    rw [hoffsets, hcount, SequentialDeltas, ← hlength]
    exact map_offset_eq_range'_iff (by omega) (by omega) hdelta
  refine ⟨⟨?_, fun hseq => ⟨b, hdecode, ?_⟩⟩, fun hseq => ?_⟩
  · rintro ⟨b', hdecode', hexact'⟩
    obtain rfl : b' = b := ok.inj (hdecode'.symm.trans hdecode)
    exact hexact.mp (hbase ▸ hexact')
  · rw [hbase]
    exact hexact.mpr hseq
  · rw [storedOffsets, hdecode]
    exact hexact.mpr hseq

/-- **Stored messages have their own offsets exactly when producers count from zero.** For every run
of admitted requests: the messages of each stored batch have the offsets of its range, in order,
exactly when every producer's deltas count up from zero; and then no two messages of the run share
an offset. -/
theorem stored_offsets_exact_iff {encryptor : Option (Nat → Bytes → Option Bytes)}
    {partitionId : UInt64} {next : Nat} {requests : List (Bytes × UInt64)}
    {batches : List Bytes}
    (hstore : storeBatches xxh3 encryptor partitionId next requests = .ok batches) :
    ((∀ stored ∈ batches, ExactOffsets xxh3 stored) ↔
      ∀ request ∈ requests, SequentialDeltas xxh3 request.1) ∧
    ((∀ request ∈ requests, SequentialDeltas xxh3 request.1) →
      ∃ total, batches.flatMap (storedOffsets xxh3) = range' next total) := by
  induction requests generalizing next batches with
  | nil =>
    cases hstore
    exact ⟨by simp, fun _ => ⟨0, rfl⟩⟩
  | cons request rest ih =>
    obtain ⟨body, timestamp⟩ := request
    simp only [storeBatches, bind_eq_ok, require_eq_ok, exists_const, ok.injEq,
      Prod.exists] at hstore
    obtain ⟨canonical, hadmitted, hnext, stored, header, hstamp, hroom, tail, htail, rfl⟩ := hstore
    obtain ⟨frames, hcarries, hsame⟩ := carries_admitSendMessages hadmitted
    obtain ⟨hexact, hsequential⟩ := exactOffsets_iff hcarries hsame hnext hstamp hroom
    obtain ⟨hall, hdistinct⟩ := ih htail
    refine ⟨?_, fun hseq => ?_⟩
    · rw [forall_mem_cons, forall_mem_cons, hexact, hall]
    · obtain ⟨hfirst, hrest⟩ := forall_mem_cons.mp hseq
      obtain ⟨total, htotal⟩ := hdistinct hrest
      refine ⟨header.messageCount + total, ?_⟩
      rw [flatMap_cons, hsequential hfirst, htotal, range'_append_1]

/-! ## Concrete requests -/

def byteSum (bs : Bytes) : UInt64 := .ofNat (leNat (bs.take 8) + bs.length)

/-- A producer's request with one empty message per delta. -/
def produceRequest (deltas : List Nat) : Bytes :=
  let metadata : Bytes := [1, 4, 1, 0, 0, 0, 1, 4, 1, 0, 0, 0, 1, 0] ++ leBytes 4 deltas.length
  let blob := deltas.flatMap fun d => frameBytes byteSum ⟨0, 1, d, 0, 0, 0⟩ [] []
  let header : Header := ⟨0, 0, 0, 0, headerSize + blob.length, 0, deltas.length⟩
  let sealed := { header with batchChecksum := calculateBatchChecksum byteSum header blob }
  leBytes 4 metadata.length ++ metadata ++ sealed.encode ++ blob

/-- Two messages with the delta zero are admitted and share an offset, and the second batch starts
behind a gap. -/
theorem repeated_deltas_share_offset :
    (storeBatches byteSum none 7 5
      [(produceRequest [0, 0], 0), (produceRequest [9], 0)]).toOption.map
      (·.flatMap (storedOffsets byteSum)) = some [5, 5, 16] := by
  decide +kernel

theorem sequential_requests_exact :
    ∃ batches, storeBatches byteSum none 7 5 [(produceRequest [0, 1], 0), (produceRequest [0], 0)] =
      .ok batches ∧ ∃ total, batches.flatMap (storedOffsets byteSum) = range' 5 total := by
  have hok : (storeBatches byteSum none 7 5
      [(produceRequest [0, 1], 0), (produceRequest [0], 0)]).toOption.isSome = true := by
    decide +kernel
  have hseq : ∀ request ∈ [(produceRequest [0, 1], (0 : UInt64)), (produceRequest [0], 0)],
      SequentialDeltas byteSum request.1 := by decide +kernel
  cases hstore : storeBatches byteSum none 7 5
    [(produceRequest [0, 1], 0), (produceRequest [0], 0)] with
  | error e => rw [hstore] at hok; exact nomatch hok
  | ok batches => exact ⟨batches, rfl, (stored_offsets_exact_iff hstore).2 hseq⟩

end Iggy
