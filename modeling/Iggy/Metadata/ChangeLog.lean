import Iggy.Consensus.ClientTable

/-!
# The metadata change log

Source: `metadata/src/change_log/{mod,store}.rs`,
`binary_protocol/src/primitives/metadata_changes/`.

A committed operation yields records in canonical order; the log stamps them with the operation's
position and keeps them in two rings, one per retention class, each bounded by a record count and by
body bytes. The left-right pair is one value here: a reader sees what the writer published.
-/

namespace Iggy

open Lib

/-! ## Records -/

inductive MetadataChangeKind
  | streamCreated | streamUpdated | streamDeleted | topicCreated | topicUpdated | topicDeleted
  | partitionsChanged | consumerGroupCreated | consumerGroupDeleted | consumerGroupMemberJoined
  | consumerGroupMemberLeft | consumerGroupPartitionHandedOver | userCreated | userUpdated
  | userDeleted | userPasswordChanged | userPermissionsUpdated | personalAccessTokenCreated
  | personalAccessTokenDeleted | sessionRegistered | sessionClosed
  deriving DecidableEq

inductive MetadataChangeClass
  | resource | activity
  deriving DecidableEq

/-- The class of the kind's group: memberships and sessions are activity. -/
def MetadataChangeKind.changeClass : MetadataChangeKind → MetadataChangeClass
  | .consumerGroupMemberJoined | .consumerGroupMemberLeft | .consumerGroupPartitionHandedOver
  | .sessionRegistered | .sessionClosed => .activity
  | _ => .resource

/-- A record before the log stamps it. -/
structure AppliedChange where
  kind : MetadataChangeKind
  actorUserId : Option Nat
  body : Bytes
  deriving DecidableEq

/-- `ApplyContext` (stm/mod.rs:39-57). -/
structure ApplyContext where
  metadataOp : Nat
  clientId : Nat
  session : Nat
  request : Nat
  userId : Nat
  deriving DecidableEq

variable (header : PrepareHeader)

def ApplyContext.ofHeader : ApplyContext where
  metadataOp := header.op
  clientId := header.client
  session := header.session
  request := header.request
  userId := header.userId

/-- `SERVER_INTERNAL_CLIENT_HIGH`: the upper 64 bits set. -/
def serverInternalClientHigh : Nat := 2 ^ 128 - 2 ^ 64

def autoCommitClientId : Nat := 2 ^ 128 - 1

def isServerInternalClient (clientId : Nat) : Bool :=
  clientId &&& serverInternalClientHigh == serverInternalClientHigh

def isAutoCommitClient (clientId : Nat) : Bool := clientId == autoCommitClientId

/-- `change_actor`: the user a record names, absent for operations of the server itself. -/
def changeActor (context : ApplyContext) : Option Nat :=
  if context.clientId ≠ 0 ∧ ¬ isServerInternalClient context.clientId then some context.userId
  else none

structure UserKey where
  userId : Nat
  userCreatedAt : Nat
  deriving DecidableEq

/-- `WireSessionClosedReason`, by code. -/
inductive SessionClosedReason
  | logout | expired | revoked
  deriving DecidableEq

def SessionClosedReason.code : SessionClosedReason → Nat
  | .logout => 0 | .expired => 1 | .revoked => 2

variable (user : UserKey) (clientId session : Nat)

def sessionBody : Bytes :=
  packFields [4, 8, 16, 8] [user.userId, user.userCreatedAt, clientId, session]

def sessionClosedBody (reason : SessionClosedReason) : Bytes :=
  sessionBody user clientId session ++ leBytes 1 reason.code

def sessionRegistered (userCreatedAt epoch : Nat) : AppliedChange where
  kind := .sessionRegistered
  actorUserId := changeActor (.ofHeader header)
  body := sessionBody ⟨header.userId, userCreatedAt⟩ header.client epoch

/-- `session_closed`: a lease expiry names no actor. -/
def sessionClosed : AppliedChange :=
  if header.request = expiredSessionRequestId then
    { kind := .sessionClosed, actorUserId := none,
      body := sessionClosedBody user header.client header.session .expired }
  else
    { kind := .sessionClosed, actorUserId := changeActor (.ofHeader header),
      body := sessionClosedBody user header.client header.session .logout }

def sessionRevoked (actorUserId : Option Nat) : AppliedChange where
  kind := .sessionClosed
  actorUserId := actorUserId
  body := sessionClosedBody user clientId session .revoked

/-! ## The log -/

/-- A record with the position of its operation. -/
structure ChangeEntry where
  op : Nat
  ordinal : Nat
  checksum : Nat
  timestamp : Nat
  actorUserId : Option Nat
  kind : MetadataChangeKind
  body : Bytes
  deriving DecidableEq

def maxRingBytes : Nat := 128 * 2 ^ 20

/-- `Ring`: one retention class. -/
structure Ring where
  entries : List ChangeEntry := []
  bytes : Nat := 0
  evictedThrough : Nat × Nat := (0, 0)
  evictedThroughTimestamp : Nat := 0
  capacity : Nat
  deriving DecidableEq

/-- Evict from the front while a bound is exceeded. -/
def Ring.trim (capacity : Nat) : List ChangeEntry → Nat → Nat × Nat → Nat → Ring
  | [], bytes, evictedThrough, evictedThroughTimestamp =>
    { entries := [], bytes, evictedThrough, evictedThroughTimestamp, capacity }
  | entry :: entries, bytes, evictedThrough, evictedThroughTimestamp =>
    if capacity < (entry :: entries).length ∨ maxRingBytes < bytes then
      trim capacity entries (bytes - entry.body.length) (entry.op, entry.ordinal) entry.timestamp
    else
      { entries := entry :: entries, bytes, evictedThrough, evictedThroughTimestamp, capacity }

def Ring.push (r : Ring) (entry : ChangeEntry) : Ring :=
  Ring.trim r.capacity (r.entries ++ [entry]) (r.bytes + entry.body.length) r.evictedThrough
    r.evictedThroughTimestamp

/-- A ring of a snapshot, trimmed to the capacity configured now. -/
def Ring.restored (r : Ring) (capacity : Nat) : Ring :=
  Ring.trim capacity r.entries (r.entries.map fun entry => entry.body.length).sum r.evictedThrough
    r.evictedThroughTimestamp

structure ChangeLog where
  logId : Option Nat := none
  lastRecordOp : Nat := 0
  resource : Ring
  activity : Ring
  deriving DecidableEq

inductive ChangeLogError
  | notMonotone (op lastRecordOp : Nat)
  | tooManyRecords (op : Nat)
  deriving DecidableEq

namespace ChangeLog

def new (resource activity : Nat) : ChangeLog where
  resource := { capacity := resource }
  activity := { capacity := activity }

variable (log : ChangeLog)

/-- A log restored from its own snapshot under other capacities. -/
def restored (resource activity : Nat) : ChangeLog :=
  { log with resource := log.resource.restored resource, activity := log.activity.restored activity }

def push (entry : ChangeEntry) : ChangeLog :=
  match entry.kind.changeClass with
  | .resource => { log with resource := log.resource.push entry }
  | .activity => { log with activity := log.activity.push entry }

/-- The records of one operation, numbered in order. -/
def stamp (changes : List AppliedChange) : List ChangeEntry :=
  changes.mapIdx fun ordinal change =>
    { op := header.op, ordinal, checksum := header.checksum, timestamp := header.timestamp,
      actorUserId := change.actorUserId, kind := change.kind, body := change.body }

/-- `MetadataChangeLog::append` on the write side: op 1 names the log, and records of an operation
at or below the newest appended one are refused. -/
def append (header : PrepareHeader) (changes : List AppliedChange) :
    Except ChangeLogError ChangeLog :=
  let named := if header.op = 1 then { log with logId := some header.checksum } else log
  if changes = [] then .ok named
  else if header.op ≤ log.lastRecordOp then .error (.notMonotone header.op log.lastRecordOp)
  else if 2 ^ 32 < changes.length then .error (.tooManyRecords header.op)
  else .ok { (stamp header changes).foldl push named with lastRecordOp := header.op }

end ChangeLog

end Iggy
