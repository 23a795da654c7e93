import Iggy.Journal.PrepareJournal
import Iggy.Metadata.ChangeLog

/-!
# Applying committed metadata prepares

Source: metadata/src/stm/authz.rs:81-131; metadata/src/impls/metadata.rs:921-1148, 1584-1628,
5681-5697; metadata/src/impls/recovery.rs:669-836.

`applyCommittedPrepare` is the path every commit takes on a running node, followed by the append to
the change log in `apply_prepare`; `replayPrepare` is the body of the replay loop of `recover`,
which rebuilds the same state from the WAL on boot. Both are generic over the state machines:
`Frontend` is what they call of `Users` and `Streams`. The notifier and the logging have no effect
on the state.
-/

namespace Iggy

open Lib

/-! ## Requests and replies -/

structure RegisterRequest where
  userCreatedAt : Nat
  bindVerifier : Bytes
  deriving DecidableEq

/-- `RegisterRequest::decode_from`: bytes past the request are not looked at. -/
def RegisterRequest.decodeFrom (body : Bytes) : Option RegisterRequest :=
  if body.length < 40 then none
  else some ⟨leNat (body.take 8), (body.drop 8).take 32⟩

structure FinalizeSessionRequest where
  identity : SessionIdentity
  namespaceRevision : Nat
  deriving DecidableEq

/-- `FinalizeSessionRequest::decode_from`: exactly the request. -/
def FinalizeSessionRequest.decodeFrom (body : Bytes) : Option FinalizeSessionRequest :=
  if body.length ≠ 40 then none
  else some ⟨⟨leNat (body.take 16), leNat ((body.drop 16).take 8), leNat ((body.drop 24).take 8)⟩,
    leNat ((body.drop 32).take 8)⟩

/-- `IggyError`, by code where the paths below do not name it. -/
inductive IggyError
  | staleClient | unauthenticated
  | other (code : Nat)
  deriving DecidableEq

def IggyError.asCode : IggyError → Nat
  | .staleClient => 30
  | .unauthenticated => 40
  | .other code => code

inductive DeletedResource
  | stream (id : Nat)
  | topic (streamId topicId : Nat)
  deriving DecidableEq

/-- `ApplyReply` (stm/result.rs:60-72). -/
structure ApplyReply where
  code : Nat := 0
  body : Bytes := []
  revokedUser : Option UserKey := none
  deletedResource : Option DeletedResource := none
  changes : List AppliedChange := []
  deriving DecidableEq

def ApplyReply.err (code : Nat) : ApplyReply := { code }

/-- `write_reply_body`: the result section, then the payload of a success. -/
def ApplyReply.replyBody (r : ApplyReply) : Bytes :=
  if r.code = 0 then leBytes 4 0 ++ r.body
  else leBytes 4 1 ++ leBytes 4 0 ++ leBytes 4 r.code

/-- `build_reply_message`: the fields of the reply the client table reads. -/
def buildReplyMessage (header : PrepareHeader) (body : Bytes) : CachedReply where
  client := header.client
  request := header.request
  commit := header.op
  operation := header.operation
  body := body

/-! ## The client table of the metadata plane -/

structure InvalidCapacity where
  capacity : Nat
  deriving DecidableEq

/-- A `ClientTable` with its `capacity_committed` flag. -/
structure MetadataTable where
  table : ClientTable
  capacityCommitted : Bool

namespace MetadataTable

variable (t : MetadataTable)

def contains (clientId : Nat) : Bool := (t.table.find clientId).isSome

/-- `get_epoch`: of a session that has not ended. -/
def getEpoch (clientId : Nat) : Option Nat :=
  ((t.table.find clientId).filter fun entry => entry.endedOp.isNone).map ClientEntry.epoch

def getUserId (clientId : Nat) : Option Nat :=
  (t.table.find clientId).map ClientEntry.userId

/-- The capacity of the log is fixed once. Slots are preallocated here and hold no entry before, so
the resize moves none. -/
def commitCapacity (capacity : Nat) : Except InvalidCapacity MetadataTable :=
  if capacity = 0 ∨ clientsTableSlotMax < capacity ∨ capacity < t.table.count ∨
      (t.capacityCommitted ∧ t.table.clientsMax ≠ capacity) then
    .error ⟨capacity⟩
  else .ok { table := { t.table with clientsMax := capacity }, capacityCommitted := true }

end MetadataTable

/-! ## The state machines behind the commit paths -/

/-- What the commit paths call of `Users` (`υ`) and `Streams` (`σ`). -/
structure Frontend (υ σ : Type) where
  isActiveAccount : υ → (userId createdAt : Nat) → Bool
  userKey : υ → (userId : Nat) → Option UserKey
  authorize : Message → υ → σ → Option ApplyReply
  rejectDanglingGrant : Message → υ → σ → Option ApplyReply
  update : υ → σ → Message → Except IggyError (υ × σ × ApplyReply)
  removeGrants : υ → DeletedResource → (timestamp : Nat) → ApplyContext → (actor : Option Nat) →
    υ × List AppliedChange
  namespaceRevision : σ → Nat
  consumerGroupSession : σ → (clientId : Nat) → Option Nat
  refreshConsumerGroupSession : σ → (clientId session metadataOp timestamp : Nat) →
    (actor : Option Nat) → σ × List AppliedChange
  removeConsumerGroupMembers : σ → (clientIds : List Nat) → (timestamp metadataOp : Nat) →
    (actor : Option Nat) → σ × List AppliedChange

structure MetadataState (υ σ : Type) where
  users : υ
  streams : σ
  clientTable : MetadataTable
  changeLog : ChangeLog

section Paths

variable {υ σ : Type} (F : Frontend υ σ)

/-- A denial or a rejected grant touches nothing; a delete drops the grants on what it deleted. -/
def gatedApply (users : υ) (streams : σ) (prepare : Message) :
    Except IggyError (υ × σ × ApplyReply) :=
  match F.authorize prepare users streams with
  | some denied => .ok (users, streams, denied)
  | none => match F.rejectDanglingGrant prepare users streams with
    | some rejected => .ok (users, streams, rejected)
    | none => do
      let context := ApplyContext.ofHeader prepare.header
      let (users, streams, reply) ← F.update users streams prepare
      match reply.deletedResource with
      | none => return (users, streams, reply)
      | some deleted =>
        let actor := match reply.changes.head? with
          | some deletion => deletion.actorUserId
          | none => changeActor context
        let (users, pruned) :=
          F.removeGrants users deleted prepare.header.timestamp context actor
        return (users, streams, { reply with changes := reply.changes ++ pruned })

/-- Completions carry a synthetic session without a client-table entry. -/
def isCompletion (operation : Operation) : Bool :=
  operation == .completeConsumerGroupRevocation || operation == .completeLifecycle

def rejectStaleSession (header : PrepareHeader) (clientTable : MetadataTable) : Option ApplyReply :=
  if isCompletion header.operation then none
  else if header.session ≠ 0 ∧ clientTable.getEpoch header.client ≠ some header.session then
    some (.err IggyError.staleClient.asCode)
  else none

/-- Sessions in the order every path ends them. -/
def sortByClientId (sessions : List SessionIdentity) : List SessionIdentity :=
  sessions.insertionSort fun a b => a.clientId ≤ b.clientId

/-- Whether the commit keeps a receipt: not for the server's own operations. -/
def keepsReceipt (header : PrepareHeader) : Bool :=
  header.client != reservedClientId && !isAutoCommitClient header.client &&
    !isCompletion header.operation

/-! ## The live path -/

inductive FatalCommit
  | retryCapacity (error : InvalidCapacity)
  | invalidRegister
  | sessionNotRetained (error : ClientTableWireError)
  | logoutNotRetained (error : ClientTableWireError)
  | invalidFinalization
  | applyFailed (error : IggyError)
  | receiptNotRetained (outcome : CommitReply)
  | replyClientMismatch
  | changeLog (error : ChangeLogError)
  deriving DecidableEq

structure CommittedApply where
  reply : CachedReply
  changes : List AppliedChange
  deriving DecidableEq

structure ApplyState (υ σ : Type) where
  users : υ
  streams : σ
  clientTable : MetadataTable

def orFatal {ε α : Type} (fatal : ε → FatalCommit) : Except ε α → Except FatalCommit α
  | .ok a => .ok a
  | .error e => .error (fatal e)

def someOrFatal {α : Type} (fatal : FatalCommit) : Option α → Except FatalCommit α
  | some a => .ok a
  | none => .error fatal

variable (tableMutationsAllowed : Bool)

/-- The end markers of this op are read back from the table, which may already hold them. -/
def applyUserRevocation (user : UserKey) (header : PrepareHeader) (s : ApplyState υ σ) :
    ApplyState υ σ × List AppliedChange :=
  let table := if tableMutationsAllowed then
    { s.clientTable with
      table := (s.clientTable.table.endUserSessions user.userId header.op).1 }
    else s.clientTable
  let sessions := sortByClientId (table.table.endedSessions.filter fun identity =>
    identity.metadataWatermark = header.op ∧
      table.getUserId identity.clientId = some user.userId)
  let actor := changeActor (.ofHeader header)
  let revoked := sessions.map fun identity =>
    sessionRevoked user identity.clientId identity.session actor
  let (streams, ended) := F.removeConsumerGroupMembers s.streams
    (sessions.map SessionIdentity.clientId) header.timestamp header.op actor
  ({ s with streams, clientTable := table }, revoked ++ ended)

def logCommitReplyOutcome : CommitReply → Except FatalCommit Unit
  | .cached | .sessionEnded _ => .ok ()
  | outcome => .error (.receiptNotRetained outcome)

variable (clientTable : MetadataTable)

def registerSession (header : PrepareHeader) (bindVerifier : Bytes) :
    Except FatalCommit MetadataTable :=
  if tableMutationsAllowed then
    orFatal .sessionNotRetained <| (clientTable.table.commitRegister header.client header.userId
      bindVerifier (buildReplyMessage header [])).map fun table => { clientTable with table }
  else .ok clientTable

variable (s : ApplyState υ σ) (prepare : Message)

/-- A retry resolves to the existing entry and keeps its epoch, so only an inserted client is a new
session. -/
def applyRegister : Except FatalCommit (ApplyState υ σ × CommittedApply) := do
  let header := prepare.header
  let registration ← someOrFatal .invalidRegister (RegisterRequest.decodeFrom prepare.body)
  if F.isActiveAccount s.users header.userId registration.userCreatedAt then
    let inserted := tableMutationsAllowed && !s.clientTable.contains header.client
    let clientTable ← registerSession tableMutationsAllowed s.clientTable header
      registration.bindVerifier
    let epoch := (clientTable.getEpoch header.client).getD header.op
    let registered := if inserted then
      [sessionRegistered header registration.userCreatedAt epoch] else []
    let (streams, handovers) := F.refreshConsumerGroupSession s.streams header.client epoch
      header.op header.timestamp (changeActor (.ofHeader header))
    return ({ s with streams, clientTable },
      { reply := buildReplyMessage header [], changes := registered ++ handovers })
  else
    let denied := ApplyReply.err IggyError.unauthenticated.asCode
    return (s, { reply := buildReplyMessage header denied.replyBody, changes := [] })

variable (t : MetadataTable)

/-- The outer `none` is its panic. -/
def MetadataTable.commitLogout (header : PrepareHeader) :
    Option (Except ClientTableWireError (MetadataTable × Bool)) :=
  (t.table.commitLogout header.client header.userId header.session
    (buildReplyMessage header [])).map fun committed =>
      committed.map fun (table, ended) => ({ t with table }, ended)

def logoutSession (header : PrepareHeader) : Except FatalCommit (MetadataTable × Bool) :=
  if tableMutationsAllowed then do
    let committed ← someOrFatal .replyClientMismatch (s.clientTable.commitLogout header)
    orFatal .logoutNotRetained committed
  else
    .ok (s.clientTable, F.consumerGroupSession s.streams header.client = some header.session)

/-- The `Logout` branch: the session record comes first, then the memberships it ended. -/
def applyLogout : Except FatalCommit (ApplyState υ σ × CommittedApply) := do
  let header := prepare.header
  let (clientTable, ended) ← logoutSession F tableMutationsAllowed s header
  let reply := buildReplyMessage header []
  if ended then
    let closed := (F.userKey s.users header.userId).map (sessionClosed header)
    let actor := closed.bind AppliedChange.actorUserId
    let (streams, left) := F.removeConsumerGroupMembers s.streams [header.client]
      header.timestamp header.op actor
    return ({ s with streams, clientTable }, { reply, changes := closed.toList ++ left })
  else return ({ s with clientTable }, { reply, changes := [] })

def MetadataTable.finalizeSession (identity : SessionIdentity) : MetadataTable :=
  { t with table := (t.table.finalizeSession identity).1 }

def applyFinalizeSession : Except FatalCommit (ApplyState υ σ × CommittedApply) := do
  let request ← someOrFatal .invalidFinalization (FinalizeSessionRequest.decodeFrom prepare.body)
  let reply := buildReplyMessage prepare.header []
  if tableMutationsAllowed ∧ F.namespaceRevision s.streams = request.namespaceRevision then
    return ({ s with clientTable := s.clientTable.finalizeSession request.identity },
      { reply, changes := [] })
  else return (s, { reply, changes := [] })

def MetadataTable.commitReply (header : PrepareHeader) (reply : CachedReply) :
    Option (MetadataTable × CommitReply) :=
  (t.table.commitReply header.client header.userId reply).map fun (table, outcome) =>
    ({ t with table }, outcome)

def retainReceipt (header : PrepareHeader) (reply : CachedReply) :
    Except FatalCommit MetadataTable :=
  if tableMutationsAllowed && keepsReceipt header then do
    let (clientTable, outcome) ←
      someOrFatal .replyClientMismatch (clientTable.commitReply header reply)
    logCommitReplyOutcome outcome
    return clientTable
  else .ok clientTable

/-- The gate of the session, then the gate of the permissions, then the state machine. -/
def applyGated (users : υ) (streams : σ) (clientTable : MetadataTable) (header : PrepareHeader)
    (prepare : Message) : Except IggyError (υ × σ × ApplyReply) :=
  match rejectStaleSession header clientTable with
  | some stale => .ok (users, streams, stale)
  | none => gatedApply F users streams prepare

def applyOperation : Except FatalCommit (ApplyState υ σ × CommittedApply) := do
  let header := prepare.header
  let (users, streams, apply) ←
    orFatal .applyFailed (applyGated F s.users s.streams s.clientTable header prepare)
  let (s, ended) := match apply.revokedUser with
    | some user =>
      applyUserRevocation F tableMutationsAllowed user header ⟨users, streams, s.clientTable⟩
    | none => (⟨users, streams, s.clientTable⟩, [])
  let reply := buildReplyMessage header apply.replyBody
  let clientTable ← retainReceipt tableMutationsAllowed s.clientTable header reply
  return ({ s with clientTable }, { reply, changes := apply.changes ++ ended })

/-- The capacity every prepare carries. -/
def commitRetryCapacity (header : PrepareHeader) : Except FatalCommit MetadataTable :=
  if tableMutationsAllowed then
    orFatal .retryCapacity (clientTable.commitCapacity header.retryCapacity)
  else .ok clientTable

def applyCommittedPrepare : Except FatalCommit (ApplyState υ σ × CommittedApply) := do
  let clientTable ← commitRetryCapacity tableMutationsAllowed s.clientTable prepare.header
  let s := { s with clientTable }
  match prepare.header.operation with
  | .register => applyRegister F tableMutationsAllowed s prepare
  | .logout => applyLogout F tableMutationsAllowed s prepare
  | .finalizeSession => applyFinalizeSession F tableMutationsAllowed s prepare
  | _ => applyOperation F tableMutationsAllowed s prepare

/-- `apply_prepare`: the commit, then its records. -/
def applyPrepare (s : MetadataState υ σ) (prepare : Message) :
    Except FatalCommit (MetadataState υ σ) := do
  let (applied, committed) ←
    applyCommittedPrepare F true ⟨s.users, s.streams, s.clientTable⟩ prepare
  let changeLog ← orFatal .changeLog (s.changeLog.append prepare.header committed.changes)
  return ⟨applied.users, applied.streams, applied.clientTable, changeLog⟩

/-- The live path over a sequence of committed prepares. -/
def applyAll (s : MetadataState υ σ) (prepares : List Message) :
    Except FatalCommit (MetadataState υ σ) :=
  prepares.foldlM (applyPrepare F) s

/-! ## The replay -/

inductive RecoveryError
  | capacity (error : InvalidCapacity)
  | retryProtection (error : ClientTableWireError)
  | missing (op : Nat)
  | stateMachine (error : IggyError)
  | changeLog (error : ChangeLogError)
  | replyClientMismatch
  deriving DecidableEq

def orRecovery {ε α : Type} (recovery : ε → RecoveryError) : Except ε α → Except RecoveryError α
  | .ok a => .ok a
  | .error e => .error (recovery e)

def someOrRecovery {α : Type} (recovery : RecoveryError) : Option α → Except RecoveryError α
  | some a => .ok a
  | none => .error recovery

/-- Append the records of a replayed operation. -/
def record (s : MetadataState υ σ) (header : PrepareHeader) (changes : List AppliedChange) :
    Except RecoveryError (MetadataState υ σ) := do
  let changeLog ← orRecovery .changeLog (s.changeLog.append header changes)
  return { s with changeLog }

variable (entryAt : PrepareHeader → Option Message)

def replayRegister (s : MetadataState υ σ) (header : PrepareHeader) :
    Except RecoveryError (MetadataState υ σ) := do
  let prepare ← someOrRecovery (.missing header.op) (entryAt header)
  let registration ← someOrRecovery (.retryProtection .invalidReply)
    (RegisterRequest.decodeFrom prepare.body)
  if ¬ F.isActiveAccount s.users header.userId registration.userCreatedAt then record s header []
  else
    let inserted := !s.clientTable.contains header.client
    let table ← orRecovery .retryProtection (s.clientTable.table.commitRegister header.client
      header.userId registration.bindVerifier (buildReplyMessage header []))
    let clientTable := { s.clientTable with table }
    let epoch := (clientTable.getEpoch header.client).getD header.op
    let registered := if inserted then
      [sessionRegistered header registration.userCreatedAt epoch] else []
    let (streams, handovers) := F.refreshConsumerGroupSession s.streams header.client epoch
      header.op header.timestamp (changeActor (.ofHeader header))
    record { s with streams, clientTable } header (registered ++ handovers)

def replayLogout (s : MetadataState υ σ) (header : PrepareHeader) :
    Except RecoveryError (MetadataState υ σ) := do
  let committed ← someOrRecovery .replyClientMismatch (s.clientTable.commitLogout header)
  let (clientTable, ended) ← orRecovery .retryProtection committed
  if ended then
    let closed := (F.userKey s.users header.userId).map (sessionClosed header)
    let actor := closed.bind AppliedChange.actorUserId
    let (streams, left) := F.removeConsumerGroupMembers s.streams [header.client]
      header.timestamp header.op actor
    record { s with streams, clientTable } header (closed.toList ++ left)
  else record { s with clientTable } header []

def replayFinalizeSession (s : MetadataState υ σ) (header : PrepareHeader) :
    Except RecoveryError (MetadataState υ σ) := do
  let prepare ← someOrRecovery (.missing header.op) (entryAt header)
  let request ← someOrRecovery (.retryProtection .invalidReply)
    (FinalizeSessionRequest.decodeFrom prepare.body)
  if F.namespaceRevision s.streams = request.namespaceRevision then
    record { s with clientTable := s.clientTable.finalizeSession request.identity } header []
  else record s header []

/-- The sessions a replayed revocation ends are those `end_user_sessions` reports. -/
def replayRevocation (user : UserKey) (header : PrepareHeader) (s : MetadataState υ σ) :
    MetadataState υ σ × List AppliedChange :=
  let (table, ended) := s.clientTable.table.endUserSessions user.userId header.op
  let sessions := sortByClientId ended
  let actor := changeActor (.ofHeader header)
  let revoked := sessions.map fun identity =>
    sessionRevoked user identity.clientId identity.session actor
  let (streams, left) := F.removeConsumerGroupMembers s.streams
    (sessions.map SessionIdentity.clientId) header.timestamp header.op actor
  ({ s with streams, clientTable := { s.clientTable with table } }, revoked ++ left)

/-- The receipt a replayed commit restores before admission. -/
def restoreReceipt (header : PrepareHeader) (reply : CachedReply) :
    Except RecoveryError MetadataTable :=
  if keepsReceipt header then do
    let (clientTable, outcome) ←
      someOrRecovery .replyClientMismatch (clientTable.commitReply header reply)
    match outcome with
    | .cached | .sessionEnded _ => return clientTable
    | _ => .error (.retryProtection (.invalidWatermark header.client))
  else .ok clientTable

def replayOperation (s : MetadataState υ σ) (header : PrepareHeader) :
    Except RecoveryError (MetadataState υ σ) := do
  let entry ← someOrRecovery (.missing header.op) (entryAt header)
  let (users, streams, reply) ←
    orRecovery .stateMachine (applyGated F s.users s.streams s.clientTable header entry)
  let (s, ended) := match reply.revokedUser with
    | some user => replayRevocation F user header { s with users, streams }
    | none => ({ s with users, streams }, [])
  let clientTable ←
    restoreReceipt s.clientTable header (buildReplyMessage header reply.replyBody)
  record { s with clientTable } header (reply.changes ++ ended)

/-- One turn of the replay loop of `recover`: an op above the commit watermark is passed over. -/
def replayPrepare (commitWatermark : Nat) (s : MetadataState υ σ) (header : PrepareHeader) :
    Except RecoveryError (MetadataState υ σ) :=
  if commitWatermark < header.op then .ok s
  else do
    let clientTable ←
      orRecovery .capacity (s.clientTable.commitCapacity header.retryCapacity)
    let s := { s with clientTable }
    match header.operation with
    | .register => replayRegister F entryAt s header
    | .logout => replayLogout F s header
    | .finalizeSession => replayFinalizeSession F entryAt s header
    | _ => replayOperation F entryAt s header

/-- The replay loop over the headers of the WAL. -/
def replay (commitWatermark : Nat) (s : MetadataState υ σ) (headers : List PrepareHeader) :
    Except RecoveryError (MetadataState υ σ) :=
  headers.foldlM (replayPrepare F entryAt commitWatermark) s

end Paths

end Iggy
