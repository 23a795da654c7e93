import Iggy.Wire.Header
import Iggy.Lib.Slots

/-!
# The client table: `ClientTable`

One entry per registered client: the fence epoch, the highest committed request and the replies kept
for retries. The metadata plane keeps a ring of replies per session, a partition slice one reply and
a 128-bit window of committed requests. `slots` and `index` of the source are one `Slots` array, in
which no client has two entries.

Line numbers are of `consensus/src/client_table.rs`.
-/

namespace Iggy

open Lib

/-- `request_operation` (operation.rs:142-152): the opcode the client sent. -/
def Operation.requestOperation : Operation → Operation
  | .createTopicWithAssignments => .createTopic
  | .createPartitionsWithAssignments => .createPartitions
  | .updateStreamResolved => .updateResource
  | .updateTopicResolved => .updateResource
  | .updateUserResolved => .updateResource
  | .truncatePartition => .deleteSegments
  | operation => operation

/-- The fields of a `ReplyHeader` (header.rs:625-669) that the table only carries. -/
structure ReplyFrame where
  checksum : Nat := 0
  checksumBody : Nat := 0
  cluster : Nat := 0
  size : Nat := 0
  view : Nat := 0
  release : Nat := 0
  command : Command := .reserved
  replica : Nat := 0
  reservedFrame : Nat := 0
  requestChecksum : Nat := 0
  context : Nat := 0
  op : Nat := 0
  timestamp : Nat := 0
  operationPadding : Nat := 0
  status : Nat := 0
  reserved : Nat := 0
  partitionIncarnation : Nat := 0
  reservedTail : Nat := 0
  deriving DecidableEq

/-- The header fields the table reads, the body and the rest of the header. -/
structure CachedReply where
  client : Nat
  request : Nat
  commit : Nat
  operation : Operation
  body : Bytes := []
  frame : ReplyFrame := {}
  deriving DecidableEq

def CachedReply.byteLen (r : CachedReply) : Nat := headerSize + r.body.length

def registerRequestId : Nat := 0

def reservedClientId : Nat := 0

def expiredSessionRequestId : Nat := 2 ^ 64 - 1

def replyRingCapacity : Nat := 5

def replyRingRetentionBytes : Nat := 8 * 1024

def clientsTableSlotMax : Nat := 2 ^ 16

def committedWindowBits : Nat := 128

/-- `is_partition_receipt_operation` (105-111). -/
def isPartitionReceiptOperation (operation : Operation) : Bool :=
  operation = .sendMessages || operation = .storeConsumerOffset ||
    operation = .deleteConsumerOffset

/-- `ClientEntry` (180-208) without the local attachment handle. -/
structure ClientEntry where
  bindVerifier : Bytes
  endedOp : Option Nat
  epoch : Nat
  userId : Nat
  watermark : Nat
  committedWindow : BitVec 128
  ring : List CachedReply
  clientId : Nat
  latestCommit : Nat
  deriving DecidableEq

/-- `ClientTableWireError` (1550-1593). -/
inductive ClientTableWireError
  | truncated
  | badMagic
  | checksumMismatch (expected actual : Nat)
  | tooManyEntries (count max : Nat)
  | invalidReply
  | invalidWatermark (clientId : Nat)
  | invalidCapacity (capacity : Nat)
  | emptyRing
  | duplicateClientId (slot clientId : Nat)
  | ringTooLong (slot len max : Nat)
  deriving DecidableEq

/-- `RequestStatus` (394-416). -/
inductive RequestStatus
  | new
  | duplicate (reply : CachedReply)
  | alreadyApplied (request watermark : Nat)
  | operationMismatch (request : Nat)
  | noSession
  | fenced (current received : Nat)
  | epochAhead (current received : Nat)
  deriving DecidableEq

/-- `CommitReply` (433-444). -/
inductive CommitReply
  | cached
  | sessionEnded (endedOp : Nat)
  | noEntry
  | skippedRegression (stored received : Nat)
  deriving DecidableEq

/-- `SliceRequestStatus` (419-426). -/
inductive SliceRequestStatus
  | new | committed | agedOut
  deriving DecidableEq

/-- `ClientTableMode` (451-456). -/
inductive ClientTableMode
  | metadata | partitionSlice
  deriving DecidableEq

structure SessionIdentity where
  clientId : Nat
  session : Nat
  metadataWatermark : Nat
  deriving DecidableEq

/-- `ClientTable` (552-567). -/
structure ClientTable where
  slots : Slots ClientEntry ClientEntry.clientId
  clientsMax : Nat
  mode : ClientTableMode

/-! ## One entry -/

namespace ClientEntry

variable (e : ClientEntry)

/-- `find_cached` (1927-1931). -/
def findCached (request : Nat) : Option CachedReply :=
  e.ring.find? fun cached => cached.request = request

/-- `trim_ring` (1949-1955): drop the oldest replies while both limits are exceeded. -/
def trimRing : List CachedReply → List CachedReply
  | [] => []
  | oldest :: rest =>
    if replyRingCapacity < (oldest :: rest).length ∧
        replyRingRetentionBytes < ((oldest :: rest).map CachedReply.byteLen).sum then trimRing rest
    else oldest :: rest

/-- `push_latest` (1935-1939). -/
def pushLatest (cached : CachedReply) : ClientEntry :=
  { e with latestCommit := cached.commit, ring := trimRing (e.ring ++ [cached]) }

/-- `watermark_only` (1819-1838). -/
def watermarkOnly (clientId userId watermark : Nat) (committedWindow : BitVec 128)
    (commitOp : Nat) : ClientEntry where
  bindVerifier := List.replicate 32 0
  endedOp := none
  epoch := 0
  userId := userId
  watermark := watermark
  committedWindow := committedWindow ||| 1#128
  ring := []
  clientId := clientId
  latestCommit := commitOp

/-- `check_slice_request` (1840-1853). -/
def checkSliceRequest (request : Nat) : SliceRequestStatus :=
  if e.watermark < request then .new
  else if committedWindowBits ≤ e.watermark - request then .agedOut
  else if e.committedWindow.getLsbD (e.watermark - request) = false then .new
  else .committed

/-- The fold of a committed request into the window (1278-1300). -/
def foldRequest (request commitOp : Nat) : ClientEntry :=
  if e.watermark < request then
    { e with
      committedWindow :=
        if committedWindowBits ≤ request - e.watermark then 1#128
        else e.committedWindow <<< (request - e.watermark) ||| 1#128
      watermark := request
      latestCommit := commitOp }
  else if e.watermark - request < committedWindowBits ∧
      e.committedWindow.getLsbD (e.watermark - request) = false then
    { e with
      committedWindow := e.committedWindow ||| 1#128 <<< (e.watermark - request)
      latestCommit := max e.latestCommit commitOp }
  else e

/-- What `commit_partition_reply` answers once the request is folded in (1231-1248). -/
def retainReceipt (session : Nat) (reply : CachedReply) : ClientEntry × CachedReply :=
  let e := { e with epoch := session }
  match e.findCached reply.request with
  | some cached => (e, cached)
  | none =>
    match e.ring.getLast? with
    | some pinned =>
      if reply.request < e.watermark then ({ e with latestCommit := pinned.commit }, reply)
      else ({ e with ring := [reply], latestCommit := reply.commit }, reply)
    | none => ({ e with ring := [reply], latestCommit := reply.commit }, reply)

variable (reply : CachedReply)

/-- What `commit_reply` does to an entry that takes the reply (1131-1155). -/
def cacheReply : ClientEntry :=
  if reply.request = e.watermark then
    if e.ring.any fun stored => stored.request = reply.request then
      let ring := e.ring.replaceF fun stored =>
        if stored.request = reply.request then some reply else none
      { e with ring := ring, latestCommit := (ring.getLast?.map (·.commit)).getD e.latestCommit }
    else e.pushLatest reply
  else { e.pushLatest reply with watermark := reply.request }

/-- `check_request` once the entry is found (966-1014). -/
def checkSession (epoch request : Nat) (operation : Operation) : RequestStatus :=
  if e.endedOp.isSome then
    match if epoch = e.epoch then e.findCached request else none with
    | some cached =>
      if cached.operation = .logout then
        if cached.operation.requestOperation = operation.requestOperation then .duplicate cached
        else .operationMismatch request
      else .noSession
    | none => .noSession
  else if epoch < e.epoch then .fenced e.epoch epoch
  else if e.epoch < epoch then .epochAhead e.epoch epoch
  else if e.watermark < request then .new
  else match e.findCached request with
    | some cached =>
      if cached.operation.requestOperation ≠ operation.requestOperation then
        .operationMismatch request
      else .duplicate cached
    | none => .alreadyApplied request e.watermark

/-- The entry `commit_register` inserts (1060-1074). -/
def registered (clientId userId : Nat) (bindVerifier : Bytes) (reply : CachedReply) :
    ClientEntry where
  bindVerifier := bindVerifier
  endedOp := none
  epoch := reply.commit
  userId := userId
  watermark := registerRequestId
  committedWindow := 0
  ring := [reply]
  clientId := clientId
  latestCommit := reply.commit

/-- The refusals of `commit_reply` (1113-1129), in the order they are made. -/
def refusesReply (userId : Nat) (reply : CachedReply) : Option CommitReply :=
  if e.userId ≠ userId then some .noEntry
  else if reply.commit < e.latestCommit then some (.skippedRegression e.latestCommit reply.commit)
  else if reply.request < e.watermark then some (.skippedRegression e.watermark reply.request)
  else (e.endedOp.filter fun endedOp => endedOp < reply.commit).map .sessionEnded

def endAt (endedOp : Nat) : ClientEntry := { e with endedOp := some endedOp }

/-- What `end_user_sessions` does to each entry. -/
def revoke (userId endedOp : Nat) : ClientEntry :=
  if e.userId = userId ∧ e.endedOp = none then e.endAt endedOp else e

/-! Every write keeps the entry's client. -/

@[simp] theorem clientId_foldRequest (request commitOp : Nat) :
    (e.foldRequest request commitOp).clientId = e.clientId := by
  unfold foldRequest
  split_ifs <;> rfl

@[simp] theorem clientId_retainReceipt (session : Nat) (reply : CachedReply) :
    (e.retainReceipt session reply).1.clientId = e.clientId := by
  unfold retainReceipt
  simp only
  split
  · rfl
  · split
    · split_ifs <;> rfl
    · rfl

@[simp] theorem clientId_registered (clientId userId : Nat) (bindVerifier : Bytes)
    (reply : CachedReply) :
    (registered clientId userId bindVerifier reply).clientId = clientId := rfl

@[simp] theorem clientId_endAt (endedOp : Nat) : (e.endAt endedOp).clientId = e.clientId := rfl

@[simp] theorem clientId_revoke (userId endedOp : Nat) :
    (e.revoke userId endedOp).clientId = e.clientId := by
  unfold revoke
  split_ifs <;> rfl

@[simp] theorem clientId_cacheReply : (e.cacheReply reply).clientId = e.clientId := by
  unfold cacheReply
  split_ifs <;> rfl

/-! Caching a reply keeps the owner, the epoch and the end marker. -/

@[simp] theorem userId_cacheReply : (e.cacheReply reply).userId = e.userId := by
  unfold cacheReply
  split_ifs <;> rfl

@[simp] theorem epoch_cacheReply : (e.cacheReply reply).epoch = e.epoch := by
  unfold cacheReply
  split_ifs <;> rfl

@[simp] theorem endedOp_cacheReply : (e.cacheReply reply).endedOp = e.endedOp := by
  unfold cacheReply
  split_ifs <;> rfl

theorem refusesReply_ne_cached {e : ClientEntry} {userId : Nat} {reply : CachedReply}
    {outcome : CommitReply} (h : e.refusesReply userId reply = some outcome) :
    outcome ≠ .cached := by
  rintro rfl
  unfold refusesReply at h
  split_ifs at h
  · cases h
  · cases h
  · cases h
  · obtain ⟨endedOp, -, hout⟩ := Option.map_eq_some_iff.mp h
    cases hout

end ClientEntry

/-! ## The table -/

namespace ClientTable

variable (t : ClientTable)

def find (clientId : Nat) : Option ClientEntry := t.slots.get clientId

def count : Nat := t.slots.entries.length

/-- Refuse a new client once every slot is taken (1049-1054, 1303-1308). With one left
`first_free_slot` finds or adds one, so `InvalidCapacity` is not reached. -/
def tooMany : ClientTableWireError :=
  .tooManyEntries (min (t.count + 1) (2 ^ 32 - 1)) t.clientsMax

def update (clientId : Nat) (f : ClientEntry → ClientEntry)
    (hf : ∀ e, (f e).clientId = e.clientId) :
    ClientTable :=
  { t with slots := t.slots.modify clientId f hf }

def add (e : ClientEntry) (h : t.find e.clientId = none) : ClientTable :=
  { t with slots := t.slots.insert e h }

variable {t : ClientTable} {e : ClientEntry}

theorem find_add {h : t.find e.clientId = none} (c : Nat) :
    (t.add e h).find c = if e.clientId = c then some e else t.find c :=
  Slots.get_insert h c

variable {c : Nat} {f : ClientEntry → ClientEntry}

theorem find_update_self {hf : ∀ e, (f e).clientId = e.clientId} : (t.update c f hf).find c =
    (t.find c).map f :=
  Slots.get_modify_self hf

theorem find_update_of_ne {c' : Nat} {hf : ∀ e, (f e).clientId = e.clientId} (hne : c' ≠ c) :
    (t.update c f hf).find c' = t.find c' :=
  Slots.get_modify_of_ne hf hne

theorem count_update {hf : ∀ e, (f e).clientId = e.clientId} : (t.update c f hf).count = t.count :=
  Slots.length_entries_modify hf

theorem count_add {h : t.find e.clientId = none} : (t.add e h).count = t.count + 1 :=
  Slots.length_entries_insert h

theorem clientId_of_find (h : t.find c = some e) : e.clientId = c :=
  (Slots.get_eq_some.mp h).2

/-! ### Metadata sessions -/

section

variable (t : ClientTable)

/-- `check_request` (940-1015) on a table that fences epochs; `none` is the panic on the reserved
client. -/
def checkRequest (clientId epoch request : Nat) (operation : Operation) : Option RequestStatus :=
  if clientId = reservedClientId then none
  else match t.find clientId with
    | none => some .noSession
    | some entry => some (entry.checkSession epoch request operation)

/-- `commit_register` (1021-1077). -/
def commitRegister (clientId userId : Nat) (bindVerifier : Bytes) (reply : CachedReply) :
    Except ClientTableWireError ClientTable :=
  if clientId = 0 ∨ clientId ≠ reply.client ∨ reply.commit = 0 ∨
      reply.request ≠ registerRequestId ∨ reply.operation ≠ .register then .error .invalidReply
  else match h : t.find clientId with
    | some entry =>
      if entry.userId = userId ∧ entry.bindVerifier = bindVerifier ∧ entry.endedOp = none then
        .ok t
      else .error (.invalidWatermark clientId)
    | none =>
      if t.clientsMax ≤ t.count then .error t.tooMany
      else .ok (t.add (ClientEntry.registered clientId userId bindVerifier reply)
        (by rw [ClientEntry.clientId_registered]; exact h))

/-- `commit_reply` (1085-1157); `none` is the panic on a client other than the reply's. -/
def commitReply (clientId userId : Nat) (reply : CachedReply) :
    Option (ClientTable × CommitReply) :=
  if clientId ≠ reply.client then none
  else if clientId = reservedClientId then some (t, .noEntry)
  else match t.find clientId with
    | none => some (t, .noEntry)
    | some entry => match entry.refusesReply userId reply with
      | some outcome => some (t, outcome)
      | none =>
        some (t.update clientId (·.cacheReply reply) (ClientEntry.clientId_cacheReply · reply),
          .cached)

/-- `end_session` (683-700). -/
def endSession (clientId userId session endedOp : Nat) : ClientTable × Bool :=
  match t.find clientId with
  | none => (t, false)
  | some entry =>
    if entry.userId = userId ∧ entry.epoch = session ∧ entry.endedOp = none then
      (t.update clientId (·.endAt endedOp) (ClientEntry.clientId_endAt · endedOp), true)
    else (t, false)

/-- `ended_sessions` (758-769). -/
def endedSessions : List SessionIdentity :=
  t.slots.entries.filterMap fun entry =>
    entry.endedOp.map fun endedOp => ⟨entry.clientId, entry.epoch, endedOp⟩

/-- `end_user_sessions` (704-722): one pass over every slot. -/
def endUserSessions (userId endedOp : Nat) : ClientTable × List SessionIdentity :=
  ({ t with
      slots := t.slots.map (·.revoke userId endedOp)
        (ClientEntry.clientId_revoke · userId endedOp) },
    (t.slots.entries.filter fun entry => entry.userId = userId ∧ entry.endedOp = none).map
      fun entry => ⟨entry.clientId, entry.epoch, endedOp⟩)

/-- `commit_logout` (731-756). -/
def commitLogout (clientId userId session : Nat) (reply : CachedReply) :
    Option (Except ClientTableWireError (ClientTable × Bool)) :=
  match t.find clientId with
  | none => some (.ok (t, false))
  | some entry =>
    if entry.epoch ≠ session ∨ entry.userId ≠ userId ∨ entry.endedOp ≠ none ∨
        (reply.request ≤ entry.watermark ∧ reply.request ≠ expiredSessionRequestId) then
      some (.ok (t, false))
    else match t.commitReply clientId userId reply with
      | none => none
      | some (t', outcome) =>
        if outcome ≠ .cached then some (.error (.invalidWatermark clientId))
        else some (.ok (t'.endSession clientId userId session reply.commit))

/-- `forget_session` (771-784). -/
def forgetSession (clientId session : Nat) : ClientTable × Bool :=
  match t.find clientId with
  | none => (t, false)
  | some entry =>
    if entry.epoch ≠ session then (t, false)
    else ({ t with slots := t.slots.erase clientId }, true)

/-- `finalize_session` (786-794). -/
def finalizeSession (identity : SessionIdentity) : ClientTable × Bool :=
  if identity ∈ t.endedSessions then t.forgetSession identity.clientId identity.session
  else (t, false)

/-! ### Partition slices -/

/-- `check_partition_request` (1162-1196). -/
def checkPartitionRequest (clientId userId session request : Nat) (operation : Operation) :
    RequestStatus :=
  match t.find clientId with
  | none => .new
  | some entry =>
    if entry.userId ≠ userId ∨ entry.epoch ≠ session then .fenced entry.epoch session
    else match entry.checkSliceRequest request with
      | .new => .new
      | .committed =>
        match entry.findCached request with
        | some reply =>
          if reply.operation ≠ operation then .operationMismatch request else .duplicate reply
        | none => .alreadyApplied request entry.watermark
      | .agedOut => .alreadyApplied request entry.watermark

def receiptEntry (session : Nat) (reply : CachedReply) (e : ClientEntry) : ClientEntry :=
  ((e.foldRequest reply.request reply.commit).retainReceipt session reply).1

theorem clientId_receiptEntry (session : Nat) (reply : CachedReply) (e : ClientEntry) :
    (receiptEntry session reply e).clientId = e.clientId := by
  simp [receiptEntry]

variable (userId session : Nat) (reply : CachedReply)

def firstReceipt : ClientEntry :=
  ((ClientEntry.watermarkOnly reply.client userId reply.request 1#128 reply.commit).retainReceipt
    session reply).1

theorem clientId_firstReceipt : (firstReceipt userId session reply).clientId = reply.client := by
  simp [firstReceipt, ClientEntry.watermarkOnly]

/-- `commit_partition_reply` with `commit_request` (1206-1320): every refusal comes before the first
write. -/
def commitPartitionReply : Except ClientTableWireError (ClientTable × CachedReply) :=
  if reply.client = 0 ∨ session = 0 ∨ reply.commit = 0 ∨
      isPartitionReceiptOperation reply.operation = false then .error .invalidReply
  else match h : t.find reply.client with
    | some entry =>
      if entry.epoch ≠ session then .error (.invalidWatermark reply.client)
      else if entry.userId ≠ userId then .error (.invalidWatermark reply.client)
      else .ok (t.update reply.client (receiptEntry session reply) (clientId_receiptEntry _ _),
        ((entry.foldRequest reply.request reply.commit).retainReceipt session reply).2)
    | none =>
      if t.clientsMax ≤ t.count then .error t.tooMany
      else .ok (t.add (firstReceipt userId session reply)
        (by rw [clientId_firstReceipt]; exact h), reply)

end

end ClientTable

end Iggy
