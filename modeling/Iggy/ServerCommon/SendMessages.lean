import Iggy.Wire.Batch

/-!
# Admission of produced batches

Source: primitives/identifier.rs:172-210; partitioning.rs:91-133;
requests/messages/send_messages.rs:222-241; server_common/src/send_messages.rs:306-352, 459-575,
672-693; iggy_partitions.rs:861-890; iggy_partition.rs:7145-7166.

A `SendMessages` request becomes the batch a partition stores. `convert_request_message` takes the
producer's `[metadata][batch]` apart and verifies it, `encrypt_batch_request` re-encodes it with
ciphertext, `stamp_prepare_for_persistence` writes the offset and the time of the partition into its
header.

A request or a prepare is its body, the bytes past its 256-byte header as far as `size` reaches; the
other fields of those headers are not read here. The hash, and the encryptor with its nonces (the
number of the call), are parameters.
-/

namespace Iggy

open Lib Batch

inductive SendError
  | invalidCommand
  | invalidBatchChecksum (stored computed baseOffset : Nat)
  | invalidMessageChecksum (stored computed offset : Nat)
  | cannotEncryptData
  | cannotDecryptData
  | cannotAppendMessage
  deriving DecidableEq

/-- `batch_error`. -/
def SendError.ofWire : Batch.WireError → SendError
  | .invalidBatchChecksum stored computed baseOffset => .invalidBatchChecksum stored computed baseOffset
  | .invalidMessageChecksum stored computed offset => .invalidMessageChecksum stored computed offset
  | _ => .invalidCommand

/-! ## Routing metadata -/

variable (bs : Bytes)

def readU8 (offset : Nat) : Except Batch.WireError Nat :=
  match bs[offset]? with
  | some b => .ok b.toNat
  | none => .error (.unexpectedEof offset 1 (bs.length - offset))

def readBytes (offset len : Nat) : Except Batch.WireError Bytes :=
  if offset + len ≤ bs.length then .ok ((bs.drop offset).take len)
  else .error (.unexpectedEof offset len (bs.length - offset))

inductive WireIdentifier
  | numeric (id : Nat)
  | string (name : Bytes)
  deriving DecidableEq

/-- The identifier at the front and how many bytes it takes. -/
def WireIdentifier.decode : Except Batch.WireError (WireIdentifier × Nat) := do
  let kind ← readU8 bs 0
  let length ← readU8 bs 1
  let value ← readBytes bs 2 length
  match kind with
  | 1 =>
    if length ≠ 4 then
      .error (.validation ("numeric identifier must be 4 bytes, got " ++ toString length))
    else .ok (.numeric (leNat value), 2 + length)
  | 2 =>
    if length = 0 then .error (.validation "string identifier cannot be empty")
    else if !ByteArray.validateUTF8 ⟨value.toArray⟩ then .error (.invalidUtf8 2)
    else .ok (.string value, 2 + length)
  | _ => .error (.unknownDiscriminant "WireIdentifier" kind 0)

inductive WirePartitioning
  | balanced
  | partitionId (id : Nat)
  | messagesKey (key : Bytes)
  deriving DecidableEq

def WirePartitioning.decode : Except Batch.WireError (WirePartitioning × Nat) := do
  let kind ← readU8 bs 0
  let length ← readU8 bs 1
  match kind with
  | 1 =>
    if length ≠ 0 then
      .error (.validation ("balanced partitioning must have length 0, got " ++ toString length))
    else .ok (.balanced, 2)
  | 2 =>
    if length ≠ 4 then
      .error (.validation ("partition_id partitioning must have length 4, got " ++ toString length))
    else do
      let id ← readBytes bs 2 4
      .ok (.partitionId (leNat id), 6)
  | 3 =>
    if length = 0 then .error (.validation "messages_key partitioning cannot have empty key")
    else do
      let key ← readBytes bs 2 length
      .ok (.messagesKey key, 2 + length)
  | _ => .error (.unknownDiscriminant "WirePartitioning" kind 0)

structure SendMessagesMetadata where
  streamId : WireIdentifier
  topicId : WireIdentifier
  partitioning : WirePartitioning
  messagesCount : Nat
  deriving DecidableEq

def SendMessagesMetadata.decode : Except Batch.WireError (SendMessagesMetadata × Nat) := do
  let (streamId, pos) ← WireIdentifier.decode bs
  let (topicId, consumed) ← WireIdentifier.decode (bs.drop pos)
  let pos := pos + consumed
  let (partitioning, consumed) ← WirePartitioning.decode (bs.drop pos)
  let pos := pos + consumed
  let count ← readBytes bs pos 4
  .ok (⟨streamId, topicId, partitioning, leNat count⟩, pos + 4)

/-! ## Admission -/

inductive ChecksumMode
  | compute | skip
  deriving DecidableEq

/-- Where the batch starts in a producer's body, and the batch. -/
structure AdmittedBatch where
  bodyOffset : Nat
  batch : Batch.BatchRef
  deriving DecidableEq

/-- The request header in front of every body. -/
def routedHeaderSize : Nat := 256

section

variable (xxh3 : Bytes → UInt64)

/-- `send_messages::decode_batch_slice`. -/
def decodeBatch? (bytes : Bytes) : Except SendError Batch.BatchRef :=
  (decodeBatchSlice xxh3 bytes).mapError .ofWire

def admitWireRequest (body : Bytes) : Except SendError AdmittedBatch := do
  require (4 ≤ body.length) .invalidCommand
  let metadataLength := leNat (body.take 4)
  let batchStart := 4 + metadataLength
  require (batchStart ≤ body.length) .invalidCommand
  let (metadata, consumed) ←
    (SendMessagesMetadata.decode ((body.drop 4).take metadataLength)).mapError fun _ =>
      SendError.invalidCommand
  require (consumed = metadataLength) .invalidCommand
  let batchBytes := body.drop batchStart
  let batch ← decodeBatch? xxh3 batchBytes
  require (batch.header.messageCount ≠ 0 ∧ batch.header.messageCount = metadata.messagesCount ∧
    batchBytes.length = batch.header.batchLength) .invalidCommand
  .ok ⟨batchStart, batch⟩

/-- `compact_wire_request`: the batch alone, with the resolved partition in its header. -/
def compactWireRequest (partitionId : UInt64) (admitted : AdmittedBatch) (checksum : ChecksumMode) :
    Except SendError Bytes := do
  let header := admitted.batch.header
  require (routedHeaderSize + header.batchLength < 2 ^ 32) .invalidCommand
  let blob := admitted.batch.blob
  let stamped := { header with partitionId := partitionId.toNat }
  let batchChecksum := match checksum with
    | .compute => calculateBatchChecksum xxh3 stamped blob
    | .skip => 0
  .ok (Batch.Header.encode { stamped with batchChecksum } ++ blob)

/-- `convert_request_message`: a body that is one verified batch passes as it is, any other is taken
as the producer's wire form. -/
def convertRequestMessage (partitionId : UInt64) (body : Bytes) (checksum : ChecksumMode) :
    Except SendError Bytes :=
  match decodeBatch? xxh3 body with
  | .ok batch =>
    if batch.header.messageCount = 0 ∨ body.length ≠ batch.header.batchLength ∨
        batch.header.partitionId ≠ partitionId.toNat then .error .invalidCommand
    else .ok body
  | .error _ => do
    let admitted ← admitWireRequest xxh3 body
    compactWireRequest xxh3 partitionId admitted checksum

/-! ## Encryption -/

variable (encrypt : Nat → Bytes → Option Bytes)

def encryptBytes (call : Nat) (bytes : Bytes) : Except SendError Bytes :=
  match encrypt call bytes with
  | some ciphertext => .ok ciphertext
  | none => .error .cannotEncryptData

/-- User headers are encrypted where there are any. -/
def encryptUserHeaders (call : Nat) (bytes : Bytes) : Except SendError Bytes :=
  if bytes.isEmpty then .ok [] else encryptBytes encrypt call bytes

/-- The bytes of a re-encoded frame: the checksum is written last, over all that follows it. -/
def frameBytes (header : Batch.MessageHeader) (payload userHeaders : Bytes) : Bytes :=
  let rest := (header.encode ++ payload ++ userHeaders).drop 8
  leBytes 8 (xxh3 rest).toNat ++ rest

/-- One frame with its payload and its user headers encrypted; its id and deltas stay. -/
def encryptFrame (index : Nat) (f : Batch.Frame) : Except SendError Bytes := do
  let payload ← encryptBytes encrypt (2 * index) f.payload
  let userHeaders ← encryptUserHeaders encrypt (2 * index + 1) f.userHeaders
  require (payload.length < 2 ^ 32 ∧ userHeaders.length < 2 ^ 32) .invalidCommand
  let header := { f.header with
    checksum := 0, userHeadersLength := userHeaders.length, payloadLength := payload.length }
  .ok (frameBytes xxh3 header payload userHeaders)

/-- The blob of the re-encoded frames from number `index` on. -/
def encryptFrames : Nat → List Batch.Frame → Except SendError Bytes
  | _, [] => .ok []
  | index, f :: rest => do
    let frame ← encryptFrame xxh3 encrypt index f
    let blob ← encryptFrames (index + 1) rest
    .ok (frame ++ blob)

/-- `encrypt_batch_request` and `encode_request`. -/
def encryptBatchRequest (body : Bytes) : Except SendError Bytes := do
  let batch ← decodeBatch? xxh3 body
  let blob ← encryptFrames xxh3 encrypt 0 batch.frames
  let sized := { batch.header with batchLength := headerSize + blob.length }
  require (routedHeaderSize + sized.batchLength < 2 ^ 32) .invalidCommand
  .ok (Batch.Header.encode
    { sized with batchChecksum := calculateBatchChecksum xxh3 sized blob } ++ blob)

variable (decrypt : Bytes → Option Bytes)

/-- The loop of `decrypt_batch_record`: the frames are rewritten as `encrypt_batch_request` does it,
under another error. -/
def decryptFrames (frames : List Batch.Frame) : Except SendError Bytes :=
  (encryptFrames xxh3 (fun _ => decrypt) 0 frames).mapError fun
    | .cannotEncryptData => .cannotDecryptData
    | e => e

def decryptBatchRecord (record : Bytes) : Except SendError Bytes := do
  let batch ← (decodeBatchSliceWith xxh3 record .layoutOnly).mapError .ofWire
  require (record.length = batch.header.batchLength) .invalidCommand
  let blob ← decryptFrames xxh3 decrypt batch.frames
  let sized := { batch.header with batchLength := headerSize + blob.length }
  require (sized.batchLength < 2 ^ 64) .invalidCommand
  .ok (Batch.Header.encode
    { sized with batchChecksum := calculateBatchChecksum xxh3 sized blob } ++ blob)

end

/-- The way of a request into the pipeline, of a partition with or without an encryptor. -/
def admitSendMessages (xxh3 : Bytes → UInt64)
    (encryptor : Option (Nat → Bytes → Option Bytes)) (partitionId : UInt64)
    (body : Bytes) : Except SendError Bytes :=
  match encryptor with
  | none => convertRequestMessage xxh3 partitionId body .skip
  | some encrypt => do
    let canonical ← convertRequestMessage xxh3 partitionId body .compute
    let encrypted ← encryptBatchRequest xxh3 encrypt canonical
    convertRequestMessage xxh3 partitionId encrypted .skip

/-! ## Stamping -/

/-- `stamp_prepare_for_persistence`: the stored batch and its header. -/
def stampPrepareForPersistence (xxh3 : Bytes → UInt64) (body : Bytes)
    (baseOffset baseTimestamp : UInt64) : Except SendError (Bytes × Batch.Header) := do
  require (headerSize ≤ body.length) .invalidCommand
  let decoded ← (Batch.Header.decode (body.take headerSize)).mapError .ofWire
  let command := { decoded with baseOffset := baseOffset.toNat, baseTimestamp := baseTimestamp.toNat }
  let blob := body.drop headerSize
  let stamped := { command with batchChecksum := calculateBatchChecksum xxh3 command blob }
  .ok (stamped.encode ++ blob, stamped)

/-- The offset a reader gives each message of a stored batch: that of the batch plus the frame's
own delta. -/
def messageOffsets (batch : Batch.BatchRef) : List Nat :=
  batch.frames.map fun f => (batch.header.baseOffset + f.header.offsetDelta) % 2 ^ 64

end Iggy
