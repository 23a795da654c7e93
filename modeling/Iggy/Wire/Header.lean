import Iggy.Lib.Bytes

/-!
# Consensus headers: `Command`, `Operation`, `PrepareHeader`

A header is 256 bytes of `#[repr(C)]` integers
(`binary_protocol/src/consensus/{command,operation,header}.rs`), so `PrepareHeader` is a flat record
of naturals, `PrepareHeader.Fits` says they are in range of their fields, and the bytes are a
`packFields` record. The reserved byte regions are read as one little-endian number each.
`XxHash3_64` is a parameter `xxh3` wherever an identity is recomputed.
-/

namespace Iggy

open Lib

/-- `Command` (command.rs:24-96), in discriminant order. -/
inductive Command
  | reserved | ping | pong | pingClient | pongClient | request | prepare | prepareOk | reply
  | commit | startViewChange | doViewChange | startView | eviction | replicaHello
  | replicaChallenge | replicaFinish | requestStartView | requestPrepares | repairPrepare
  | repairDone | rangeEvicted | requestStateTransfer | stateTransferTarget | requestStateChunk
  | stateChunk | forwardRegister | forwardRegisterResult | forwardLogout | forwardLogoutResult
  | consumerSessionHeartbeat | sessionRetirementProgress | forwardCompletion | primaryRebalance
  | segmentDelete
  deriving DecidableEq

def Command.all : List Command := [
  .reserved, .ping, .pong, .pingClient, .pongClient, .request, .prepare, .prepareOk, .reply,
  .commit, .startViewChange, .doViewChange, .startView, .eviction, .replicaHello,
  .replicaChallenge, .replicaFinish, .requestStartView, .requestPrepares, .repairPrepare,
  .repairDone, .rangeEvicted, .requestStateTransfer, .stateTransferTarget, .requestStateChunk,
  .stateChunk, .forwardRegister, .forwardRegisterResult, .forwardLogout, .forwardLogoutResult,
  .consumerSessionHeartbeat, .sessionRetirementProgress, .forwardCompletion, .primaryRebalance,
  .segmentDelete]

def Command.code : Command → Nat
  | .reserved => 0 | .ping => 1 | .pong => 2 | .pingClient => 3 | .pongClient => 4
  | .request => 5 | .prepare => 6 | .prepareOk => 7 | .reply => 8 | .commit => 9
  | .startViewChange => 10 | .doViewChange => 11 | .startView => 12 | .eviction => 13
  | .replicaHello => 14 | .replicaChallenge => 15 | .replicaFinish => 16
  | .requestStartView => 17 | .requestPrepares => 18 | .repairPrepare => 19 | .repairDone => 20
  | .rangeEvicted => 21 | .requestStateTransfer => 22 | .stateTransferTarget => 23
  | .requestStateChunk => 24 | .stateChunk => 25 | .forwardRegister => 26
  | .forwardRegisterResult => 27 | .forwardLogout => 28 | .forwardLogoutResult => 29
  | .consumerSessionHeartbeat => 30 | .sessionRetirementProgress => 31
  | .forwardCompletion => 32 | .primaryRebalance => 33 | .segmentDelete => 34

/-- The checked cast of a command byte (command.rs:102-108). -/
def Command.ofCode? (n : Nat) : Option Command := Command.all.find? (·.code == n)

@[simp] theorem Command.ofCode?_code (c : Command) : Command.ofCode? c.code = some c := by
  cases c <;> rfl

/-- `Operation` (operation.rs:24-118). -/
inductive Operation
  | reserved | register | nonReplicated | logout | createTopicWithAssignments
  | createPartitionsWithAssignments | removeConsumerGroupMember
  | completeConsumerGroupRevocation | truncatePartition | finalizeSession | completeLifecycle
  | updateStreamResolved | updateTopicResolved | updateUserResolved | rewrapStreamKeys
  | createStream | deleteStream | createTopic | deleteTopic | createPartitions
  | deletePartitions | deleteSegments | createConsumerGroup | deleteConsumerGroup | createUser
  | deleteUser | changePassword | updatePermissions | createPersonalAccessToken
  | deletePersonalAccessToken | joinConsumerGroup | leaveConsumerGroup | updateResource
  | sendMessages | storeConsumerOffset | deleteConsumerOffset | retireSession
  | installConsumerGroupOwner | transitionPartitionHistory | retireConsumerGroupOwners
  deriving DecidableEq

def Operation.all : List Operation := [
  .reserved, .register, .nonReplicated, .logout, .createTopicWithAssignments,
  .createPartitionsWithAssignments, .removeConsumerGroupMember,
  .completeConsumerGroupRevocation, .truncatePartition, .finalizeSession, .completeLifecycle,
  .updateStreamResolved, .updateTopicResolved, .updateUserResolved, .rewrapStreamKeys,
  .createStream, .deleteStream, .createTopic, .deleteTopic, .createPartitions,
  .deletePartitions, .deleteSegments, .createConsumerGroup, .deleteConsumerGroup, .createUser,
  .deleteUser, .changePassword, .updatePermissions, .createPersonalAccessToken,
  .deletePersonalAccessToken, .joinConsumerGroup, .leaveConsumerGroup, .updateResource,
  .sendMessages, .storeConsumerOffset, .deleteConsumerOffset, .retireSession,
  .installConsumerGroupOwner, .transitionPartitionHistory, .retireConsumerGroupOwners]

/-- The discriminant byte. Retired numbers are left free. -/
def Operation.code : Operation → Nat
  | .reserved => 0 | .register => 1 | .nonReplicated => 2 | .logout => 3
  | .createTopicWithAssignments => 64 | .createPartitionsWithAssignments => 65
  | .removeConsumerGroupMember => 66 | .completeConsumerGroupRevocation => 67
  | .truncatePartition => 68 | .finalizeSession => 70 | .completeLifecycle => 71
  | .updateStreamResolved => 72 | .updateTopicResolved => 73 | .updateUserResolved => 74
  | .rewrapStreamKeys => 75 | .createStream => 128 | .deleteStream => 130 | .createTopic => 132
  | .deleteTopic => 134 | .createPartitions => 136 | .deletePartitions => 137
  | .deleteSegments => 138 | .createConsumerGroup => 139 | .deleteConsumerGroup => 140
  | .createUser => 141 | .deleteUser => 143 | .changePassword => 144
  | .updatePermissions => 145 | .createPersonalAccessToken => 146
  | .deletePersonalAccessToken => 147 | .joinConsumerGroup => 148 | .leaveConsumerGroup => 149
  | .updateResource => 150 | .sendMessages => 160 | .storeConsumerOffset => 161
  | .deleteConsumerOffset => 162 | .retireSession => 166 | .installConsumerGroupOwner => 167
  | .transitionPartitionHistory => 168 | .retireConsumerGroupOwners => 169

/-- The checked cast of an operation byte: an unknown or retired discriminant is rejected. -/
def Operation.ofCode? (n : Nat) : Option Operation := Operation.all.find? (·.code == n)

@[simp] theorem Operation.ofCode?_code (o : Operation) : Operation.ofCode? o.code = some o := by
  cases o <;> rfl

/-- `is_partition`: the numbers from `SendMessages` on. -/
def Operation.isPartition (o : Operation) : Bool := Operation.sendMessages.code ≤ o.code

/-- `CHECKSUM_UNSEALED` (header.rs:1218). -/
def checksumUnsealed : Nat := 0

def headerSize : Nat := 256

/-- `DVC_HEADERS_MAX`: suffix slots one `u128` bitset can address. -/
def dvcHeadersMax : Nat := 128

/-- `PrepareHeader` (header.rs:1076-1119). -/
structure PrepareHeader where
  checksum : Nat := 0
  checksumBody : Nat := 0
  cluster : Nat := 0
  size : Nat := 0
  view : Nat := 0
  release : Nat := 0
  command : Command := .reserved
  replica : Nat := 0
  reservedFrame : Nat := 0
  client : Nat := 0
  parent : Nat := 0
  requestChecksum : Nat := 0
  op : Nat := 0
  commit : Nat := 0
  timestamp : Nat := 0
  request : Nat := 0
  operation : Operation := .reserved
  operationPadding : Nat := 0
  group : Nat := 0
  userId : Nat := 0
  retryCapacity : Nat := 0
  partitionIncarnation : Nat := 0
  reserved : Nat := 0
  session : Nat := 0
  deriving DecidableEq

/-- The `ConsensusError` variants a prepare header's `validate` raises. -/
inductive ConsensusError
  | invalidCommand (expected found : Command)
  | invalidField (message : String)
  deriving DecidableEq

/-- `PrepareHeader::validate` (header.rs:1183-1210). -/
def PrepareHeader.validate (h : PrepareHeader) : Except ConsensusError Unit :=
  if h.command ≠ .prepare then .error (.invalidCommand .prepare h.command)
  else if h.reservedFrame ≠ 0 then
    .error (.invalidField "prepare: reserved_frame bytes must be zero")
  else if h.reserved ≠ 0 then .error (.invalidField "prepare: reserved bytes must be zero")
  else .ok ()

variable {h : PrepareHeader}

theorem PrepareHeader.validate_eq_ok :
    h.validate = .ok () ↔ h.command = .prepare ∧ h.reservedFrame = 0 ∧ h.reserved = 0 := by
  unfold PrepareHeader.validate
  split_ifs <;> simp_all

/-! ## Byte layout -/

/-- Field widths in declaration order; they sum to `headerSize`. -/
def prepareWidths : List Nat :=
  [16, 16, 16, 4, 4, 4, 1, 1, 66, 16, 16, 16, 8, 8, 8, 8, 1, 7, 8, 4, 4, 8, 8, 8]

example : prepareWidths.sum = headerSize := by decide

def PrepareHeader.fields (h : PrepareHeader) : List Nat :=
  [h.checksum, h.checksumBody, h.cluster, h.size, h.view, h.release, h.command.code, h.replica,
    h.reservedFrame, h.client, h.parent, h.requestChecksum, h.op, h.commit, h.timestamp,
    h.request, h.operation.code, h.operationPadding, h.group, h.userId, h.retryCapacity,
    h.partitionIncarnation, h.reserved, h.session]

/-- Every field is in range of its integer type. -/
def PrepareHeader.Fits (h : PrepareHeader) : Prop := FieldsFit prepareWidths h.fields

instance (h : PrepareHeader) : Decidable h.Fits :=
  inferInstanceAs (Decidable (List.Forall₂ _ _ _))

/-- `bytemuck::bytes_of(header)`. -/
def PrepareHeader.bytesOf (h : PrepareHeader) : Bytes := packFields prepareWidths h.fields

/-- `bytemuck::checked::try_from_bytes`: the length and the two enum bytes are checked. -/
def PrepareHeader.tryFromBytes (bs : Bytes) : Option PrepareHeader :=
  if bs.length ≠ headerSize then none
  else match unpackFields prepareWidths bs with
    | [checksum, checksumBody, cluster, size, view, release, command, replica, reservedFrame,
        client, parent, requestChecksum, op, commit, timestamp, request, operation,
        operationPadding, group, userId, retryCapacity, partitionIncarnation, reserved,
        session] =>
      match Command.ofCode? command, Operation.ofCode? operation with
      | some command, some operation =>
        some { checksum, checksumBody, cluster, size, view, release, command, replica,
               reservedFrame, client, parent, requestChecksum, op, commit, timestamp, request,
               operation, operationPadding, group, userId, retryCapacity, partitionIncarnation,
               reserved, session }
      | _, _ => none
    | _ => none

theorem PrepareHeader.length_bytesOf (hf : h.Fits) : h.bytesOf.length = headerSize :=
  (length_packFields hf).trans (by decide)

/-- **Round trip of one header.** -/
theorem PrepareHeader.tryFromBytes_bytesOf (hf : h.Fits) : tryFromBytes h.bytesOf = some h := by
  have hlen := length_bytesOf hf
  have hun : unpackFields prepareWidths h.bytesOf = h.fields := unpackFields_packFields hf
  simp [tryFromBytes, hlen, hun, PrepareHeader.fields]

theorem Command.code_of_ofCode? {n : Nat} {c : Command} (h : Command.ofCode? n = some c) :
    c.code = n := by
  simpa using List.find?_some h

theorem Operation.code_of_ofCode? {n : Nat} {o : Operation} (h : Operation.ofCode? n = some o) :
    o.code = n := by
  simpa using List.find?_some h

theorem PrepareHeader.fields_of_tryFromBytes {bs : Bytes} (hread : tryFromBytes bs = some h) :
    h.fields = unpackFields prepareWidths bs := by
  unfold tryFromBytes at hread
  split at hread
  · exact nomatch hread
  split at hread
  case h_2 => exact nomatch hread
  case h_1 hfields =>
    split at hread
    case h_2 => exact nomatch hread
    case h_1 command operation hcommand hoperation =>
      cases hread
      simp only [hfields, fields, Command.code_of_ofCode? hcommand,
        Operation.code_of_ofCode? hoperation]

theorem PrepareHeader.fits_of_tryFromBytes {bs : Bytes} (hread : tryFromBytes bs = some h) :
    h.Fits := by
  rw [Fits, fields_of_tryFromBytes hread]
  exact fieldsFit_unpackFields _ _

/-- `identity_checksum` (header.rs:1256-1261): the hash of the header with `checksum` and
`view` zeroed, so a retransmission that restamps `view` keeps its identity. -/
def PrepareHeader.identityChecksum (xxh3 : Bytes → Nat) (h : PrepareHeader) : Nat :=
  xxh3 ({ h with checksum := 0, view := 0 } : PrepareHeader).bytesOf

/-- `anchors_chain` (header.rs:1267-1269). -/
def PrepareHeader.anchorsChain (h : PrepareHeader) : Bool :=
  h.checksum ≠ checksumUnsealed && (h.parent ≠ checksumUnsealed || h.op == 1)

end Iggy
