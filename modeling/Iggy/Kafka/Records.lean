import Iggy.Kafka.UserHeaders

/-!
# One Kafka record as one message

Source: iggy_message.rs:163-215; kafka_wire/src/records.rs:172-700.

A record is stored in one of three shapes. The plain shape has the value as payload and one fixed
header block. The native shape keeps key, headers and timestamp in user headers, with a marker for a
value that no payload can be. The envelope carries every field in the payload. `from_iggy` tells
them, and messages the gateway never wrote, apart by headers.

The codec of user headers is a parameter (`HeaderCodec`); the one in use is `wireCodec`. A field
that is out of range makes `header_key` and `header_value` panic; here they do not check, and every
field the gateway writes is shown to be in range (`HeaderField.InRange`).
-/

namespace Iggy.Kafka

open Lib

/-! ## Messages -/

def maxPayloadSize : Nat := 64 * 1000 * 1000

def maxUserHeadersSize : Nat := 100 * 1000

/-- `IggyMessage` and the fields of its header read here; times are in microseconds. -/
structure IggyMessage where
  payload : Bytes
  userHeaders : Option Bytes
  userHeadersLength : Nat
  originTimestamp : Nat
  timestamp : Nat
  deriving DecidableEq

/-- `RecordCodecError`, as far as one record goes. -/
inductive RecordCodecError
  | iggy (error : MessageError)
  | timestampOutOfRange (millis : Int)
  | userHeadersUnreadable (length : Nat)
  | mappingVersion (version : Nat)
  | valueMarker (marker : Bytes)
  | headerNameCollision (name : String)
  | timestampHeader (value : Bytes)
  | envelopeTooLarge (size : Nat)
  | envelopeTruncated (needed remaining : Nat)
  | envelopeTrailingBytes (left : Nat)
  | envelopeVersion (version : Nat)
  | envelopeHeaderName
  deriving DecidableEq

section

variable (codec : HeaderCodec)

/-- `IggyMessage::new`; `now` is what its clock reads. -/
def IggyMessage.new (now : Nat) (payload : Bytes) (userHeaders : Option UserHeaders) :
    Except MessageError IggyMessage :=
  if payload.isEmpty then .error .invalidMessagePayloadLength
  else if maxPayloadSize < payload.length then .error .tooBigMessagePayload
  else
    let wireHeaders := userHeaders.map codec.encode
    let userHeadersLength := (wireHeaders.map List.length).getD 0
    if maxUserHeadersSize < userHeadersLength then .error .tooBigUserHeaders
    else .ok
      { payload, userHeaders := wireHeaders, userHeadersLength, originTimestamp := now,
        timestamp := 0 }

def IggyMessage.userHeadersMap (message : IggyMessage) : Except MessageError (Option UserHeaders) :=
  match message.userHeaders with
  | some bytes => codec.decode bytes
  | none => .ok none

end

/-! ## Records -/

/-- A Kafka record. Header names are the keys of a map, so each stands for one value. -/
structure Record where
  key : Option Bytes
  value : Option Bytes
  headers : List (String × Option Bytes)
  offset : Int
  timestamp : Int
  transactional : Bool := false
  control : Bool := false
  deleteHorizon : Bool := false
  partitionLeaderEpoch : Int := -1
  producerId : Int := -1
  producerEpoch : Int := -1
  sequence : Int := -1
  deriving DecidableEq

def versionHeader : String := "kafka.v"
def mappingVersion : UInt8 := 1
def keyHeader : String := "kafka.key"
def valueMarkerHeader : String := "kafka.value"
def timestampHeader : String := "kafka.ts"
def headerPrefix : String := "kafka.h."
def envelopeHeader : String := "kafka.envelope"
def envelopeVersion : UInt8 := 1

def noTimestamp : Int := -1
def epochTimestamp : Int := 0
def maxSendSpanMicros : Nat := 2 ^ 32 - 1
def placeholder : Bytes := [0]
def maxField : Nat := 255
def markerNull : Bytes := utf8Bytes "null"
def markerEmpty : Bytes := utf8Bytes "empty"
def flagKey : UInt8 := 1
def flagValue : UInt8 := 2
def envelopeOverhead : Nat := 13
def envelopeHeaderOverhead : Nat := 9

def headerKey (name : String) : HeaderField := ⟨.string, utf8Bytes name⟩

def headerValue (value : Bytes) : HeaderField := ⟨.raw, value⟩

def int64Value (n : Int) : HeaderField := ⟨.int64, leBytes 8 (n % 2 ^ 64).toNat⟩

def HeaderField.asInt64 (field : HeaderField) : Option Int :=
  if field.kind ≠ .int64 ∨ field.value.length ≠ 8 then none
  else
    let n : Int := leNat field.value
    some (if n < 2 ^ 63 then n else n - 2 ^ 64)

/-! ## Timestamps -/

def timestampIn (millis : Int) : Except RecordCodecError Nat :=
  if millis = noTimestamp then .ok 0
  else if 0 ≤ millis ∧ millis * 1000 < 2 ^ 63 then .ok (millis * 1000).toNat
  else .error (.timestampOutOfRange millis)

/-- `i64::try_from(n).unwrap_or(NO_TIMESTAMP)`. -/
def millisOr (n : Nat) : Int := if n < 2 ^ 63 then n else noTimestamp

def serverTimestamp (message : IggyMessage) : Int := millisOr (message.timestamp / 1000)

def timestampOut (message : IggyMessage) : Int :=
  if message.originTimestamp = 0 then serverTimestamp message
  else millisOr (message.originTimestamp / 1000)

structure Stamp where
  origin : Nat
  header : Option Int

structure TimestampWindow where
  start : Nat
  deriving DecidableEq

namespace TimestampWindow

def of (records : List Record) : TimestampWindow :=
  let starts := (records.filter fun record => epochTimestamp < record.timestamp).filterMap
    fun record => (timestampIn record.timestamp).toOption
  ⟨starts.min?.getD 0⟩

variable (window : TimestampWindow)

/-- `start.saturating_add(MAX_SEND_SPAN_MICROS)`. -/
def stop : Nat := min (window.start + maxSendSpanMicros) (2 ^ 64 - 1)

/-- `native.clamp(start, stop)`. -/
def clamp (native : Nat) : Nat :=
  if native < window.start then window.start
  else if window.stop < native then window.stop
  else native

def stamp (millis : Int) : Except RecordCodecError Stamp := do
  let native ← timestampIn millis
  let origin := window.clamp native
  -- A zero origin reads back as no timestamp, so the epoch needs the header as well.
  return { origin, header := if origin ≠ native ∨ millis = epochTimestamp then some millis else none }

end TimestampWindow

/-! ## Writing -/

/-- Whether any field of `record` is one no user header can hold. -/
def needsEnvelope (record : Record) : Bool :=
  (record.key.any fun key => key.isEmpty || decide (maxField < key.length)) ||
    record.headers.any fun (name, value) =>
      decide (maxField < (utf8Bytes headerPrefix).length + (utf8Bytes name).length) ||
        value.all fun value => value.isEmpty || decide (maxField < value.length)

/-- The value, when `kafka.v` is the only header the record needs. -/
def plainValue (record : Record) (stamp : Stamp) : Option Bytes :=
  if record.key.isSome || !record.headers.isEmpty || stamp.header.isSome then none
  else record.value.filter fun value => !value.isEmpty

/-- Payload to store, and the marker when the value is not the payload. -/
def splitValue : Option Bytes → Bytes × Option Bytes
  | none => (placeholder, some markerNull)
  | some value => if value.isEmpty then (placeholder, some markerEmpty) else (value, none)

def gatewayHeaders (timestamp : Option Int) : UserHeaders :=
  let headers := SortedMap.empty.insert (headerKey versionHeader) (headerValue [mappingVersion])
  match timestamp with
  | none => headers
  | some millis => headers.insert (headerKey timestampHeader) (int64Value millis)

def nativeHeaders (record : Record) (stamp : Stamp) : UserHeaders :=
  let headers := gatewayHeaders stamp.header
  let headers := match (splitValue record.value).2 with
    | none => headers
    | some marker => headers.insert (headerKey valueMarkerHeader) (headerValue marker)
  let headers := match record.key with
    | none => headers
    | some key => headers.insert (headerKey keyHeader) (headerValue key)
  record.headers.foldl (fun headers (name, value) => match value with
    | none => headers
    | some value => headers.insert (headerKey (headerPrefix ++ name)) (headerValue value)) headers

def fieldLength (field : Option Bytes) : Nat := (field.map List.length).getD 0

def envelopeSize (record : Record) : Nat :=
  envelopeOverhead + fieldLength record.key + fieldLength record.value +
    (record.headers.map fun (name, value) =>
      envelopeHeaderOverhead + (utf8Bytes name).length + fieldLength value).sum

/-- `put_u32_le` of a length, `u32::MAX` if it does not fit. -/
def putLength (n : Nat) : Bytes := leBytes 4 (min n (2 ^ 32 - 1))

def putField (field : Option Bytes) : Bytes :=
  putLength (field.getD []).length ++ field.getD []

def putHeader (header : String × Option Bytes) : Bytes :=
  putLength (utf8Bytes header.1).length ++ utf8Bytes header.1 ++
    [if header.2.isSome then 1 else 0] ++ putField header.2

def encodeEnvelope (record : Record) : Bytes :=
  let flags := (if record.key.isSome then flagKey else 0) |||
    (if record.value.isSome then flagValue else 0)
  [flags] ++ putField record.key ++ putField record.value ++ putLength record.headers.length ++
    record.headers.flatMap putHeader

section

variable (codec : HeaderCodec) (now : Nat)

/-- `version_only`: the encoded block that holds `kafka.v` alone. -/
def versionOnly : Bytes := codec.encode (gatewayHeaders none)

def plainMessage (value : Bytes) (origin : Nat) : Except RecordCodecError IggyMessage :=
  match IggyMessage.new codec now value none with
  | .error error => .error (.iggy error)
  | .ok message => .ok
    { message with
      userHeadersLength := (versionOnly codec).length
      userHeaders := some (versionOnly codec)
      originTimestamp := origin }

/-- `build`: `none` when the headers together are too long. -/
def build (payload : Bytes) (headers : UserHeaders) (origin : Nat) :
    Except RecordCodecError (Option IggyMessage) :=
  match IggyMessage.new codec now payload (some headers) with
  | .ok message => .ok (some { message with originTimestamp := origin })
  | .error .tooBigUserHeaders => .ok none
  | .error error => .error (.iggy error)

def envelopeMessage (record : Record) (stamp : Stamp) : Except RecordCodecError IggyMessage :=
  if maxPayloadSize < envelopeSize record then .error (.envelopeTooLarge (envelopeSize record))
  else do
    let headers := (gatewayHeaders stamp.header).insert (headerKey envelopeHeader)
      (headerValue [envelopeVersion])
    match ← build codec now (encodeEnvelope record) headers stamp.origin with
    | some message => .ok message
    | none => .error (.iggy .tooBigUserHeaders)

def toIggy (record : Record) (window : TimestampWindow) : Except RecordCodecError IggyMessage := do
  let stamp ← window.stamp record.timestamp
  match plainValue record stamp with
  | some value => plainMessage codec now value stamp.origin
  | none =>
    if needsEnvelope record then envelopeMessage codec now record stamp
    else
      match ← build codec now (splitValue record.value).1 (nativeHeaders record stamp) stamp.origin with
      | some message => .ok message
      | none => envelopeMessage codec now record stamp

end

/-! ## Reading -/

abbrev RecordFields :=
  Option Bytes × Option Bytes × List (String × Option Bytes)

variable (headers : List (String × Option Bytes))

/-- `IndexMap::insert`: a new name goes to the end, an old one keeps its place; with the old value. -/
def insertHeader (name : String) (value : Option Bytes) :
    List (String × Option Bytes) × Option (Option Bytes) :=
  match headers.lookup name with
  | none => (headers ++ [(name, value)], none)
  | some old => (headers.map fun header => if header.1 = name then (name, value) else header, some old)

def takeEnvelope (needed : Nat) (bytes : Bytes) :
    Except RecordCodecError (Bytes × Bytes) :=
  takeBytes (.envelopeTruncated needed bytes.length) needed bytes

def takeField (bytes : Bytes) : Except RecordCodecError (Bytes × Bytes) := do
  let (length, rest) ← takeEnvelope 4 bytes
  takeEnvelope (leNat length) rest

def takeHeaders : Nat → List (String × Option Bytes) → Bytes →
    Except RecordCodecError (List (String × Option Bytes) × Bytes)
  | 0, headers, bytes => .ok (headers, bytes)
  | count + 1, headers, bytes => do
    let (name, bytes) ← takeField bytes
    match fromUtf8 name with
    | none => .error .envelopeHeaderName
    | some name =>
      let (present, bytes) ← takeEnvelope 1 bytes
      let (value, bytes) ← takeField bytes
      let value := if present ≠ [0] then some value else none
      takeHeaders count (insertHeader headers name value).1 bytes

def decodeEnvelope (version payload : Bytes) : Except RecordCodecError RecordFields := do
  match version.head? with
  | none => .error (.envelopeVersion 0)
  | some first =>
    if first ≠ envelopeVersion then .error (.envelopeVersion first.toNat)
    else
      let (flags, bytes) ← takeEnvelope 1 payload
      let (key, bytes) ← takeField bytes
      let (value, bytes) ← takeField bytes
      let (count, bytes) ← takeEnvelope 4 bytes
      let needed := leNat count * envelopeHeaderOverhead
      if bytes.length < needed then .error (.envelopeTruncated needed bytes.length)
      else
        let (headers, bytes) ← takeHeaders (leNat count) [] bytes
        if bytes ≠ [] then .error (.envelopeTrailingBytes bytes.length)
        else
          let flags := flags.headD 0
          .ok (if flags &&& flagKey ≠ 0 then some key else none,
            if flags &&& flagValue ≠ 0 then some value else none, headers)

def headerName (key : HeaderField) : Option String := fromUtf8 key.value

/-- `str::strip_prefix`. -/
def stripHead (head text : String) : Option String :=
  if (utf8Bytes text).take (utf8Bytes head).length = utf8Bytes head then
    fromUtf8 ((utf8Bytes text).drop (utf8Bytes head).length)
  else none

/-- The Kafka name a stored header carries. -/
def kafkaName (key : HeaderField) : Option String :=
  (headerName key).bind (stripHead headerPrefix)

/-- The loop body of `gateway_fields`: a header stored under a Kafka name, added under that name. -/
def addNamed (entry : HeaderField × HeaderField) :
    Except RecordCodecError (List (String × Option Bytes)) :=
  match kafkaName entry.1 with
  | none => .ok headers
  | some name =>
    match insertHeader headers name (some entry.2.value) with
    | (headers, none) => .ok headers
    | (_, some _) => .error (.headerNameCollision name)

def gatewayFields (message : IggyMessage) (stored : UserHeaders) :
    Except RecordCodecError RecordFields := do
  let key := (stored.get? (headerKey keyHeader)).map (·.value)
  let value ← match stored.get? (headerKey valueMarkerHeader) with
    | none => .ok (some message.payload)
    | some marker =>
      if marker.value = markerNull then .ok none
      else if marker.value = markerEmpty then .ok (some [])
      else .error (.valueMarker marker.value)
  let headers ← stored.entries.foldlM addNamed []
  return (key, value, headers)

def foreignFields (message : IggyMessage) (stored : UserHeaders) : RecordFields :=
  (none, some message.payload, stored.entries.foldl (fun headers (storedKey, storedValue) =>
    match headerName storedKey with
    | none => headers
    | some name => (insertHeader headers name (some storedValue.value)).1) [])

def storedTimestamp (message : IggyMessage) (stored : UserHeaders) : Except RecordCodecError Int :=
  match stored.get? (headerKey versionHeader) with
  | none => .ok (timestampOut message)
  | some version =>
    if version.value ≠ [mappingVersion] then .error (.mappingVersion (version.value.headD 0).toNat)
    else match stored.get? (headerKey timestampHeader) with
      | none => .ok (timestampOut message)
      | some header => match header.asInt64 with
        | none => .error (.timestampHeader header.value)
        | some millis =>
          if millis = noTimestamp then .ok (serverTimestamp message)
          else if epochTimestamp ≤ millis then .ok millis
          else .error (.timestampHeader header.value)

section

variable (codec : HeaderCodec)

def storedHeaders (message : IggyMessage) : Except RecordCodecError UserHeaders :=
  match message.userHeadersMap codec with
  | .error error => .error (.iggy error)
  | .ok (some stored) => .ok stored
  | .ok none =>
    if 0 < message.userHeadersLength then .error (.userHeadersUnreadable message.userHeadersLength)
    else .ok SortedMap.empty

def fromIggy (message : IggyMessage) (offset : Int) : Except RecordCodecError Record :=
  if message.userHeaders = some (versionOnly codec) then
    .ok { key := none, value := some message.payload, headers := [], offset,
          timestamp := timestampOut message }
  else do
    let stored ← storedHeaders codec message
    let timestamp ← storedTimestamp message stored
    if (stored.get? (headerKey versionHeader)).isNone then
      let (key, value, headers) := foreignFields message stored
      return { key, value, headers, offset, timestamp }
    else
      let (key, value, headers) ← match stored.get? (headerKey envelopeHeader) with
        | some envelope => decodeEnvelope envelope.value message.payload
        | none => gatewayFields message stored
      return { key, value, headers, offset, timestamp }

def recordTimestamp (message : IggyMessage) : Except RecordCodecError Int :=
  if message.userHeaders = some (versionOnly codec) then .ok (timestampOut message)
  else do
    let stored ← storedHeaders codec message
    storedTimestamp message stored

end

end Iggy.Kafka
