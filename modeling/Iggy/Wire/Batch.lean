import Iggy.Lib.Bytes
import Iggy.Lib.Framing
import Iggy.Lib.Except

/-!
# The message batch

Source: binary_protocol/src/batch.rs:97-151, 244-527.

The one layout that a producer sends, the replicas journal, a segment stores and a poll returns. A
256-byte batch header is followed by the blob, message frames laid end to end, each a 48-byte
header, the payload and the user headers. A batch checksum covers the fields of its header and the
checksum field of each frame; a frame's checksum covers the rest of the frame.

`XxHash3_64` is the parameter `xxh3`. Fields are naturals; what is read of bytes is in range of its
field by construction, what is written is cut to it.
-/

namespace Iggy.Batch

open List Lib

def headerSize : Nat := 256
def messageHeaderSize : Nat := 48

inductive WireError
  | unexpectedEof (offset need have_ : Nat)
  | validation (message : String)
  | invalidBatchChecksum (stored computed baseOffset : Nat)
  | invalidMessageChecksum (stored computed offset : Nat)
  | invalidUtf8 (offset : Nat)
  | unknownDiscriminant (typeName : String) (value offset : Nat)
  deriving DecidableEq

/-- `BatchHeader`. -/
structure Header where
  partitionId : Nat
  baseOffset : Nat
  baseTimestamp : Nat
  originTimestamp : Nat
  batchLength : Nat
  batchChecksum : Nat
  messageCount : Nat
  deriving DecidableEq

namespace Header

/-- The fields and the reserved bytes behind them. -/
def widths : List Nat := [8, 8, 8, 8, 8, 8, 4, 204]

variable (h : Header)

def fields : List Nat :=
  [h.partitionId, h.baseOffset, h.baseTimestamp, h.originTimestamp, h.batchLength, h.batchChecksum,
    h.messageCount, 0]

def Fits : Prop := FieldsFit widths h.fields

def decode (bytes : Bytes) : Except WireError Header :=
  match unpackFields widths bytes with
  | [partitionId, baseOffset, baseTimestamp, originTimestamp, batchLength, batchChecksum,
      messageCount, reserved] => do
    require (headerSize ≤ bytes.length) (.unexpectedEof 0 headerSize bytes.length)
    require (headerSize ≤ batchLength) (.validation "batch length must cover the batch header")
    require (reserved = 0) (.validation "batch header reserved bytes must be zero")
    .ok ⟨partitionId, baseOffset, baseTimestamp, originTimestamp, batchLength, batchChecksum,
      messageCount⟩
  | _ => .error (.unexpectedEof 0 headerSize bytes.length)

/-- `encode_into`, the 256 bytes it fills. -/
def encode : Bytes := packFields widths h.fields

def blobLen : Nat := h.batchLength - headerSize

variable {h : Header}

theorem length_encode (h : Header) : h.encode.length = headerSize := by
  simp [encode, fields, widths, packFields, headerSize]

theorem fits_iff : h.Fits ↔ h.partitionId < 256 ^ 8 ∧ h.baseOffset < 256 ^ 8 ∧
    h.baseTimestamp < 256 ^ 8 ∧ h.originTimestamp < 256 ^ 8 ∧ h.batchLength < 256 ^ 8 ∧
    h.batchChecksum < 256 ^ 8 ∧ h.messageCount < 256 ^ 4 := by
  simp [Fits, fields, widths, FieldsFit]

variable {bytes : Bytes}

theorem decode_eq_ok : decode bytes = .ok h ↔
    headerSize ≤ bytes.length ∧ headerSize ≤ h.batchLength ∧
      unpackFields widths bytes = h.fields := by
  unfold decode
  split
  case h_1 partitionId baseOffset baseTimestamp originTimestamp batchLength batchChecksum
      messageCount reserved hun =>
    simp only [bind_eq_ok, require_eq_ok, exists_const, Except.ok.injEq, hun, fields]
    constructor
    · rintro ⟨hlen, hcover, rfl, rfl⟩
      exact ⟨hlen, hcover, rfl⟩
    · rintro ⟨hlen, hcover, heq⟩
      simp only [List.cons.injEq, and_true] at heq
      obtain ⟨rfl, rfl, rfl, rfl, rfl, rfl, rfl, rfl⟩ := heq
      exact ⟨hlen, hcover, rfl, rfl⟩
  case h_2 hno =>
    constructor
    · intro h
      cases h
    · rintro ⟨-, -, heq⟩
      exact absurd heq (hno _ _ _ _ _ _ _ _)

theorem fits_of_decode (hd : decode bytes = .ok h) : h.Fits := by
  rw [Fits, ← (decode_eq_ok.mp hd).2.2]
  exact fieldsFit_unpackFields _ _

theorem decode_take (hlen : headerSize ≤ bytes.length) :
    decode (bytes.take headerSize) = .ok h ↔ decode bytes = .ok h := by
  have htake : (bytes.take headerSize).length = headerSize := by
    rw [length_take, min_eq_left hlen]
  have hread : unpackFields widths bytes = unpackFields widths (bytes.take headerSize) := by
    have happ := unpackFields_append (bytes.drop headerSize)
      (show widths.sum ≤ (bytes.take headerSize).length by rw [htake]; decide)
    rwa [take_append_drop] at happ
  rw [decode_eq_ok, decode_eq_ok, htake, hread]
  exact and_congr_left fun _ => ⟨fun _ => hlen, fun _ => le_rfl⟩

/-- **Round trip of a header**, whatever follows it. -/
theorem decode_encode (hf : h.Fits) (hcover : headerSize ≤ h.batchLength) (tail : Bytes) :
    decode (h.encode ++ tail) = .ok h := by
  have hlen := length_encode h
  exact decode_eq_ok.mpr ⟨by rw [length_append]; omega, hcover,
    unpackFields_packFields_append hf tail⟩

end Header

/-- `BatchMessageHeader`, without its reserved bytes. -/
structure MessageHeader where
  checksum : Nat
  id : Nat
  offsetDelta : Nat
  timestampDelta : Nat
  userHeadersLength : Nat
  payloadLength : Nat
  deriving DecidableEq

namespace MessageHeader

def widths : List Nat := [8, 16, 4, 4, 4, 4, 8]

section

variable (h : MessageHeader)
include h

def fields : List Nat :=
  [h.checksum, h.id, h.offsetDelta, h.timestampDelta, h.userHeadersLength, h.payloadLength, 0]

def Fits : Prop := FieldsFit widths h.fields

def decode (bytes : Bytes) : Except WireError MessageHeader :=
  match unpackFields widths bytes with
  | [checksum, id, offsetDelta, timestampDelta, userHeadersLength, payloadLength, reserved] => do
    require (messageHeaderSize ≤ bytes.length) (.unexpectedEof 0 messageHeaderSize bytes.length)
    require (reserved = 0) (.validation "message frame reserved bytes must be zero")
    .ok ⟨checksum, id, offsetDelta, timestampDelta, userHeadersLength, payloadLength⟩
  | _ => .error (.unexpectedEof 0 messageHeaderSize bytes.length)

def encode : Bytes := packFields widths h.fields

def totalSize : Nat := messageHeaderSize + h.userHeadersLength + h.payloadLength

end

variable {h : MessageHeader}

theorem length_encode (h : MessageHeader) : h.encode.length = messageHeaderSize := by
  simp [encode, fields, widths, packFields, messageHeaderSize]

theorem decode_eq_ok {bytes : Bytes} : decode bytes = .ok h ↔
    messageHeaderSize ≤ bytes.length ∧ unpackFields widths bytes = h.fields := by
  unfold decode
  split
  case h_1 checksum id offsetDelta timestampDelta userHeadersLength payloadLength reserved hun =>
    simp only [bind_eq_ok, require_eq_ok, exists_const, Except.ok.injEq, hun, fields]
    constructor
    · rintro ⟨hlen, rfl, rfl⟩
      exact ⟨hlen, rfl⟩
    · rintro ⟨hlen, heq⟩
      simp only [List.cons.injEq, and_true] at heq
      obtain ⟨rfl, rfl, rfl, rfl, rfl, rfl, rfl⟩ := heq
      exact ⟨hlen, rfl, rfl⟩
  case h_2 hno =>
    constructor
    · intro h
      cases h
    · rintro ⟨-, heq⟩
      exact absurd heq (hno _ _ _ _ _ _ _)

theorem fits_of_decode {bytes : Bytes} (hd : decode bytes = .ok h) : h.Fits := by
  rw [Fits, ← (decode_eq_ok.mp hd).2]
  exact fieldsFit_unpackFields _ _

theorem decode_encode (hf : h.Fits) (tail : Bytes) : decode (h.encode ++ tail) = .ok h := by
  have hlen := length_encode h
  exact decode_eq_ok.mpr ⟨by rw [length_append]; omega, unpackFields_packFields_append hf tail⟩

end MessageHeader

/-! ## Frames -/

/-- A message frame: what its header says, and its bytes from the header on. -/
structure Frame where
  header : MessageHeader
  payload : Bytes
  userHeaders : Bytes
  bytes : Bytes
  deriving DecidableEq

/-- One turn of the frame iterator; a frame that does not fit ends the walk. -/
def nextFrame (bs : Bytes) : Option Frame :=
  match MessageHeader.decode bs with
  | .error _ => none
  | .ok header =>
    if bs.length < header.totalSize then none
    else
      let body := bs.drop messageHeaderSize
      some ⟨header, body.take header.payloadLength,
        (body.drop header.payloadLength).take header.userHeadersLength, bs.take header.totalSize⟩

variable {bs : Bytes} {f : Frame}

theorem nextFrame_eq_some (h : nextFrame bs = some f) :
    MessageHeader.decode bs = .ok f.header ∧ f.header.totalSize ≤ bs.length ∧
      f.bytes = bs.take f.header.totalSize := by
  unfold nextFrame at h
  split at h
  · exact nomatch h
  case h_2 header hd =>
    obtain ⟨hlen, ⟨⟩⟩ := Option.ite_none_left_eq_some.mp h
    exact ⟨hd, not_lt.mp hlen, rfl⟩

theorem length_bytes_of_nextFrame (h : nextFrame bs = some f) :
    f.bytes.length = f.header.totalSize := by
  obtain ⟨-, hle, hbytes⟩ := nextFrame_eq_some h
  rw [hbytes, length_take, min_eq_left hle]

theorem nextFrame_append {own rest : Bytes} {header : MessageHeader}
    (hd : MessageHeader.decode (own ++ rest) = .ok header)
    (hlen : own.length = header.totalSize) :
    nextFrame (own ++ rest) = some ⟨header, (own.drop messageHeaderSize).take header.payloadLength,
      ((own.drop messageHeaderSize).drop header.payloadLength).take header.userHeadersLength,
      own⟩ := by
  have hsize : header.totalSize =
      messageHeaderSize + header.userHeadersLength + header.payloadLength := rfl
  have hbody : (own ++ rest).drop messageHeaderSize = own.drop messageHeaderSize ++ rest :=
    drop_append_of_le_length (by omega)
  have hcover : ¬ (own ++ rest).length < header.totalSize := by
    rw [length_append]
    omega
  simp only [nextFrame, hd, if_neg hcover, hbody, Option.some.injEq, Frame.mk.injEq, true_and]
  refine ⟨?_, ?_, take_left' hlen⟩
  · rw [take_append_of_le_length]
    rw [length_drop]
    omega
  · rw [drop_append_of_le_length, take_append_of_le_length]
    · rw [length_drop, length_drop]
      omega
    · rw [length_drop]
      omega

theorem nextFrame_bytes_append (h : nextFrame bs = some f) (tail : Bytes) :
    nextFrame (f.bytes ++ tail) = some f := by
  obtain ⟨hd, -, hbytes⟩ := nextFrame_eq_some h
  have hlen := length_bytes_of_nextFrame h
  have hsplit : bs = f.bytes ++ bs.drop f.header.totalSize := by rw [hbytes, take_append_drop]
  rw [hsplit] at hd h
  have hwidth : MessageHeader.widths.sum ≤ f.bytes.length := by
    rw [hlen, MessageHeader.totalSize]
    exact Nat.le_trans (by decide) (Nat.le_trans (Nat.le_add_right _ _) (Nat.le_add_right _ _))
  have hdtail : MessageHeader.decode (f.bytes ++ tail) = .ok f.header := by
    rw [MessageHeader.decode_eq_ok, unpackFields_append _ hwidth] at hd ⊢
    refine ⟨?_, hd.2⟩
    rw [length_append]
    exact hwidth.trans (Nat.le_add_right _ _)
  rw [nextFrame_append hdtail hlen, ← nextFrame_append hd hlen, h]

def framing : Framing Frame where
  next := nextFrame
  size f := f.header.totalSize
  size_pos _ := by
    unfold MessageHeader.totalSize messageHeaderSize
    omega
  size_le h := (nextFrame_eq_some h).2.1

structure BatchRef where
  header : Header
  blob : Bytes
  deriving DecidableEq

/-- The batch a header at the front of `body` describes. -/
def BatchRef.ofBody (header : Header) (body : Bytes) : BatchRef :=
  ⟨header, (body.drop headerSize).take header.blobLen⟩

theorem BatchRef.blob_ofBody (header : Header) (body : Bytes) :
    (ofBody header body).blob = (body.drop headerSize).take header.blobLen := by
  rw [ofBody]

/-- The frames of a batch, as its iterators yield them. -/
def BatchRef.frames (b : BatchRef) : List Frame := framing.records b.blob

inductive Integrity
  | verify | layoutOnly
  deriving DecidableEq

variable (xxh3 : Bytes → UInt64)

/-- `write_batch_header_fields`. -/
def batchHeaderFields (h : Header) : Bytes :=
  packFields [8, 8, 8, 8, 8, 4]
    [h.partitionId, h.baseOffset, h.baseTimestamp, h.originTimestamp, h.batchLength, h.messageCount]

def calculateBatchChecksum (h : Header) (blob : Bytes) : Nat :=
  (xxh3 (batchHeaderFields h ++ (framing.records blob).flatMap (·.bytes.take 8))).toNat

/-- What a frame's checksum covers. -/
def Frame.expectedChecksum (f : Frame) : Nat := (xxh3 (f.bytes.drop 8)).toNat

/-- `validate_batch_layout`: the frames are as many as the header says and leave no byte over. -/
def validateBatchLayout (b : BatchRef) : Except WireError Unit :=
  require (b.frames.length = b.header.messageCount ∧ framing.covered b.blob = b.blob.length)
    (.validation "batch frames do not tile message_count exactly")

def verifyAndRecomputeBatchChecksum (b : BatchRef) : Except WireError Nat :=
  match b.frames.find? fun f => f.expectedChecksum xxh3 ≠ f.header.checksum with
  | some f =>
    .error (.invalidMessageChecksum f.header.checksum (f.expectedChecksum xxh3)
      (min (b.header.baseOffset + f.header.offsetDelta) (2 ^ 64 - 1)))
  | none => do
    validateBatchLayout b
    .ok (calculateBatchChecksum xxh3 b.header b.blob)

def decodeBatchSliceWith (body : Bytes) (integrity : Integrity) : Except WireError BatchRef := do
  let header ← Header.decode body
  require (header.batchLength ≤ body.length) (.unexpectedEof 0 header.batchLength body.length)
  let batch := BatchRef.ofBody header body
  match integrity with
  | .verify =>
    let expected ← verifyAndRecomputeBatchChecksum xxh3 batch
    require (header.batchChecksum = expected)
      (.invalidBatchChecksum header.batchChecksum expected header.baseOffset)
  | .layoutOnly => validateBatchLayout batch
  .ok batch

def decodeBatchSlice (body : Bytes) : Except WireError BatchRef :=
  decodeBatchSliceWith xxh3 body .verify

/-! ## What a decoded batch is -/

variable {xxh3} {body : Bytes} {b : BatchRef}

def BatchRef.Tiled (b : BatchRef) : Prop :=
  b.frames.length = b.header.messageCount ∧ framing.covered b.blob = b.blob.length

theorem verify_eq_ok {checksum : Nat} :
    verifyAndRecomputeBatchChecksum xxh3 b = .ok checksum ↔
      (∀ f ∈ b.frames, f.expectedChecksum xxh3 = f.header.checksum) ∧ b.Tiled ∧
        checksum = calculateBatchChecksum xxh3 b.header b.blob := by
  unfold verifyAndRecomputeBatchChecksum
  split
  case h_1 f hf =>
    refine ⟨nofun, fun ⟨hall, _⟩ => ?_⟩
    have hne := find?_some hf
    exact absurd (hall f (mem_of_find?_eq_some hf)) (by simpa using hne)
  case h_2 hnone =>
    have hall : ∀ f ∈ b.frames, f.expectedChecksum xxh3 = f.header.checksum := fun f hf => by
      simpa using find?_eq_none.mp hnone f hf
    simp only [bind_eq_ok, validateBatchLayout, require_eq_ok, exists_const, Except.ok.injEq]
    constructor
    · rintro ⟨htiled, rfl⟩
      exact ⟨hall, htiled, rfl⟩
    · rintro ⟨-, htiled, rfl⟩
      exact ⟨htiled, rfl⟩

variable {integrity : Integrity}

theorem decodeBatchSliceWith_eq_ok :
    decodeBatchSliceWith xxh3 body integrity = .ok b ↔
      Header.decode body = .ok b.header ∧ b.header.batchLength ≤ body.length ∧
      b = .ofBody b.header body ∧ b.Tiled ∧
      (integrity = .verify →
        (∀ f ∈ b.frames, f.expectedChecksum xxh3 = f.header.checksum) ∧
        b.header.batchChecksum = calculateBatchChecksum xxh3 b.header b.blob) := by
  unfold decodeBatchSliceWith
  simp only [bind_eq_ok, require_eq_ok, exists_const]
  constructor
  · rintro ⟨header, hheader, hlen, hrest⟩
    generalize hb : BatchRef.ofBody header body = batch at hrest
    have hsame : batch.header = header := by rw [← hb]; rfl
    cases integrity with
    | verify =>
      simp only [bind_eq_ok, require_eq_ok, exists_const, verify_eq_ok, Except.ok.injEq] at hrest
      obtain ⟨checksum, ⟨hframes, htiled, rfl⟩, hsum, rfl⟩ := hrest
      rw [hsame]
      exact ⟨hheader, hlen, hb.symm, htiled, fun _ => ⟨hframes, by rw [hsum, hsame]⟩⟩
    | layoutOnly =>
      simp only [bind_eq_ok, validateBatchLayout, require_eq_ok, exists_const,
        Except.ok.injEq] at hrest
      obtain ⟨htiled, rfl⟩ := hrest
      rw [hsame]
      exact ⟨hheader, hlen, hb.symm, htiled, fun h => absurd h (by decide)⟩
  · rintro ⟨hheader, hlen, hb, htiled, hverify⟩
    refine ⟨b.header, hheader, hlen, ?_⟩
    rw [← hb]
    cases integrity with
    | verify =>
      simp only [bind_eq_ok, require_eq_ok, exists_const, verify_eq_ok]
      exact ⟨_, ⟨(hverify rfl).1, htiled, rfl⟩, (hverify rfl).2, trivial⟩
    | layoutOnly =>
      simp only [bind_eq_ok, validateBatchLayout, require_eq_ok, exists_const]
      exact ⟨htiled, trivial⟩

theorem nextFrame_of_mem {blob : Bytes} (h : f ∈ framing.records blob) :
    ∃ bs, nextFrame bs = some f :=
  Framing.exists_next_of_mem h

theorem BatchRef.Tiled.flatMap_frames (h : b.Tiled) : b.frames.flatMap Frame.bytes = b.blob := by
  rw [frames, Framing.flatMap_records fun bs f hf => (nextFrame_eq_some hf).2.2]
  exact take_of_length_le h.2.ge

theorem decodeBatchSliceWith_append {raw : Bytes} (h : decodeBatchSlice xxh3 raw = .ok b)
    (hlen : raw.length = b.header.batchLength) (tail : Bytes) :
    decodeBatchSliceWith xxh3 (raw ++ tail) integrity = .ok b := by
  obtain ⟨hheader, -, hb, htiled, hverify⟩ := decodeBatchSliceWith_eq_ok.mp h
  obtain ⟨hsize, hcover, hfields⟩ := Header.decode_eq_ok.mp hheader
  have happend : (raw ++ tail).length = raw.length + tail.length := length_append
  refine decodeBatchSliceWith_eq_ok.mpr ⟨Header.decode_eq_ok.mpr ⟨by omega, hcover, ?_⟩, by omega,
    ?_, htiled, fun _ => hverify rfl⟩
  · rw [← hfields]
    exact unpackFields_append tail (Nat.le_trans (by decide) hsize)
  · have hblob : ((raw ++ tail).drop headerSize).take b.header.blobLen =
        (raw.drop headerSize).take b.header.blobLen := by
      rw [drop_append_of_le_length hsize, take_append_of_le_length]
      rw [length_drop, Header.blobLen, hlen]
    rw [BatchRef.ofBody, hblob, ← BatchRef.ofBody, ← hb]

theorem decodeBatchSliceWith_take {raw : Bytes} {n : Nat}
    (h : decodeBatchSlice xxh3 raw = .ok b) (hheader : headerSize ≤ n) (hlen : n ≤ raw.length)
    (hcut : n < b.header.batchLength) :
    decodeBatchSliceWith xxh3 (raw.take n) integrity =
      .error (.unexpectedEof 0 b.header.batchLength n) := by
  have hdecode : Header.decode (raw.take n) = .ok b.header := by
    have htake : (raw.take n).take headerSize = raw.take headerSize := by
      rw [take_take, min_eq_left hheader]
    have hle : headerSize ≤ (raw.take n).length := by
      rw [length_take]
      omega
    rw [← Header.decode_take hle, htake, Header.decode_take (hheader.trans hlen)]
    exact (decodeBatchSliceWith_eq_ok.mp h).1
  have htake : (raw.take n).length = n := by
    rw [length_take, min_eq_left hlen]
  unfold decodeBatchSliceWith require
  rw [hdecode, htake]
  simp only [bind, Except.bind]
  rw [if_neg (not_le.mpr hcut)]

theorem headerSize_le_batchLength (h : decodeBatchSliceWith xxh3 body integrity = .ok b) :
    headerSize ≤ b.header.batchLength :=
  (Header.decode_eq_ok.mp (decodeBatchSliceWith_eq_ok.mp h).1).2.1

theorem BatchRef.ofBody_encode {h : Header} {blob : Bytes}
    (hlen : h.batchLength = headerSize + blob.length) : BatchRef.ofBody h (h.encode ++ blob) = ⟨h, blob⟩ := by
  have htake : ((h.encode ++ blob).drop headerSize).take h.blobLen = blob := by
    rw [drop_left' h.length_encode, take_of_length_le]
    rw [Header.blobLen, hlen]
    omega
  rw [BatchRef.ofBody, htake]

theorem decodeBatchSlice_encode {h : Header} {blob : Bytes} (hf : h.Fits)
    (hlen : h.batchLength = headerSize + blob.length)
    (hcount : (framing.records blob).length = h.messageCount)
    (hcovered : framing.covered blob = blob.length)
    (hverified : ∀ f ∈ framing.records blob, f.expectedChecksum xxh3 = f.header.checksum)
    (hsum : h.batchChecksum = calculateBatchChecksum xxh3 h blob) :
    decodeBatchSlice xxh3 (h.encode ++ blob) = .ok ⟨h, blob⟩ := by
  have hsize := h.length_encode
  refine decodeBatchSliceWith_eq_ok.mpr ⟨Header.decode_encode hf (by omega) blob, ?_,
    (BatchRef.ofBody_encode hlen).symm, ⟨hcount, hcovered⟩, fun _ => ⟨hverified, hsum⟩⟩
  rw [length_append, hsize, hlen]

end Iggy.Batch
