import Iggy.Lib.Timeline
import Iggy.Metadata.ChangeLog
import Mathlib.Data.Prod.Lex

/-!
# The metadata change feed

`change_page` (`metadata/src/change_log/query.rs:45-299`) is one page of the change log for a
selection of record groups. It starts at the oldest retained operation, at the newest record or
behind the record a cursor names, merges the rings of the requested classes by position, and stops
at the upper time bound, the record limit, the byte budget or the scan budget. Taking the lower of
the two ring heads in turn is a merge.
-/

namespace Iggy

/-- `(op, ordinal)`, in lexicographic order. -/
abbrev Position := ℕ ×ₗ ℕ

inductive MetadataChangeGroup
  | streams | topics | partitions | consumerGroups | consumerGroupMembers | users
  | personalAccessTokens | sessions
  deriving DecidableEq

def MetadataChangeKind.group : MetadataChangeKind → MetadataChangeGroup
  | .streamCreated | .streamUpdated | .streamDeleted => .streams
  | .topicCreated | .topicUpdated | .topicDeleted => .topics
  | .partitionsChanged => .partitions
  | .consumerGroupCreated | .consumerGroupDeleted => .consumerGroups
  | .consumerGroupMemberJoined | .consumerGroupMemberLeft | .consumerGroupPartitionHandedOver =>
    .consumerGroupMembers
  | .userCreated | .userUpdated | .userDeleted | .userPasswordChanged
  | .userPermissionsUpdated => .users
  | .personalAccessTokenCreated | .personalAccessTokenDeleted => .personalAccessTokens
  | .sessionRegistered | .sessionClosed => .sessions

/-- `MetadataChangeGroups`: the selected groups. -/
abbrev MetadataChangeGroups := MetadataChangeGroup → Bool

variable (groups : MetadataChangeGroups)

def MetadataChangeGroups.containsClass : MetadataChangeClass → Bool
  | .activity => groups .consumerGroupMembers || groups .sessions
  | .resource => groups .streams || groups .topics || groups .partitions ||
      groups .consumerGroups || groups .users || groups .personalAccessTokens

theorem containsClass_of_group {groups : MetadataChangeGroups} {kind : MetadataChangeKind}
    (h : groups kind.group = true) : groups.containsClass kind.changeClass = true := by
  cases kind <;>
    simp_all [MetadataChangeKind.group, MetadataChangeKind.changeClass,
      MetadataChangeGroups.containsClass]

/-- `WireMetadataChangeCursor`. -/
structure MetadataChangeCursor where
  logId : Nat
  op : Nat
  checksum : Nat
  ordinal : Nat
  deriving DecidableEq

namespace MetadataChangeCursor

def zero (logId : Nat) : MetadataChangeCursor := ⟨logId, 0, 0, 0⟩

def position (c : MetadataChangeCursor) : Position := toLex (c.op, c.ordinal)

end MetadataChangeCursor

namespace ChangeEntry

def position (e : ChangeEntry) : Position := toLex (e.op, e.ordinal)

def cursor (e : ChangeEntry) (logId : Nat) : MetadataChangeCursor :=
  ⟨logId, e.op, e.checksum, e.ordinal⟩

end ChangeEntry

/-- `WireMetadataChangeRecord`, with the group and the kind in place of their codes. -/
structure MetadataChangeRecord where
  op : Nat
  ordinal : Nat
  checksum : Nat
  timestamp : Nat
  actorUserId : Option Nat
  group : MetadataChangeGroup
  kind : MetadataChangeKind
  body : Bytes
  deriving DecidableEq

namespace MetadataChangeRecord

def ofEntry (e : ChangeEntry) : MetadataChangeRecord where
  op := e.op
  ordinal := e.ordinal
  checksum := e.checksum
  timestamp := e.timestamp
  actorUserId := e.actorUserId
  group := e.kind.group
  kind := e.kind
  body := e.body

/-- `encoded_size`: 43 bytes without the actor and the body. -/
def encodedSize (r : MetadataChangeRecord) : Nat :=
  43 + (if r.actorUserId.isSome then 4 else 0) + r.body.length

end MetadataChangeRecord

/-- `WireMetadataChangeStatus`. -/
inductive MetadataChangeStatus
  | ok | behind | expired | reset
  deriving DecidableEq

/-- `MetadataChangeStart`; the token of a current state scan is left out. -/
inductive MetadataChangeStart
  | earliest | latest
  | after (cursor : MetadataChangeCursor)
  | current
  deriving DecidableEq

/-- `MetadataChangesQuery` without its groups, which come normalized. -/
structure MetadataChangesQuery where
  start : MetadataChangeStart
  since : Option Nat
  «until» : Option Nat
  limit : Nat
  deriving DecidableEq

/-- `GetMetadataChangesResponse`, without the fields of current state pages. -/
structure GetMetadataChangesResponse where
  status : MetadataChangeStatus
  logId : Option Nat
  oldestOp : Nat
  retainedSince : Nat
  headOp : Nat
  next : Option MetadataChangeCursor
  hasMore : Bool
  records : List MetadataChangeRecord
  deriving DecidableEq

def maxScannedEntries : Nat := 65536

def maxPageBytes : Nat := 1024 * 1024

/-- `u32::MAX`, above every ordinal. -/
def maxOrdinal : Nat := 2 ^ 32 - 1

/-- `InvalidCommand`, the only error of a page. -/
inductive ChangePageError
  | invalidCommand
  deriving DecidableEq

inductive CursorCheck
  | valid (position : Position)
  | behind | expired | reset
  deriving DecidableEq

/-- The length of the leading run. -/
def partitionPoint {α : Type} (p : α → Bool) (l : List α) : Nat := (l.takeWhile p).length

def changeClasses : List MetadataChangeClass := [.resource, .activity]

def ChangeLog.ring (log : ChangeLog) : MetadataChangeClass → Ring
  | .resource => log.resource
  | .activity => log.activity

/-- `LogView`: a log image read for one selection of groups. -/
structure LogView where
  log : ChangeLog
  groups : MetadataChangeGroups
  headOp : Nat

namespace LogView

variable (v : LogView)

def rings : List Ring :=
  (changeClasses.filter v.groups.containsClass).map v.log.ring

def highestEvicted (rings : List Ring) : Position :=
  (rings.map fun ring => (toLex ring.evictedThrough : Position)).foldl max (toLex (0, 0))

/-- The newest evicted position of the requested classes. -/
def floor : Position := highestEvicted v.rings

def retainedSince : Nat := (v.rings.map Ring.evictedThroughTimestamp).foldl max 0

def newest (rings : List Ring) : Option ChangeEntry :=
  Lib.maxByKey ChangeEntry.position (rings.filterMap fun ring => ring.entries.getLast?)

def latestCursor (logId : Nat) : MetadataChangeCursor :=
  match newest v.rings with
  | none => .zero logId
  | some entry => entry.cursor logId

def entryAt (position : Position) (ring : Ring) : Option ChangeEntry :=
  (ring.entries[partitionPoint (fun e => e.position < position) ring.entries]?).filter
    fun e => e.position = position

/-- Cursor rules 2 to 6. -/
def check (cursor : MetadataChangeCursor) : CursorCheck :=
  if v.log.logId ≠ some cursor.logId then .reset
  else if cursor.op = 0 then
    if v.floor = toLex (0, 0) then .valid (toLex (0, 0)) else .expired
  else if v.headOp < cursor.op then .behind
  else
    match changeClasses.findSome? fun c => entryAt cursor.position (v.log.ring c) with
    | some entry =>
      if entry.checksum ≠ cursor.checksum then .reset
      else if cursor.position ≤ v.floor then .expired
      else .valid cursor.position
    | none =>
      if cursor.position ≤ highestEvicted (changeClasses.map v.log.ring) then .expired else .reset

/-- No records, `next` as given. -/
def answer (status : MetadataChangeStatus) (next : Option MetadataChangeCursor) :
    GetMetadataChangesResponse where
  status := status
  logId := v.log.logId
  oldestOp := (ofLex v.floor).1 + 1
  retainedSince := v.retainedSince
  headOp := v.headOp
  next := next
  hasMore := false
  records := []

structure ScannedPage where
  records : List MetadataChangeRecord := []
  lastExamined : Option ChangeEntry := none
  hasMore : Bool := false
  deriving DecidableEq

/-- The bytes an entry adds to the page; a skipped one adds none. -/
def wantedSize (entry : ChangeEntry) : Nat :=
  if groups entry.kind.group then (MetadataChangeRecord.ofEntry entry).encodedSize else 0

/-- A budget is used up before `size` more bytes. -/
def ScannedPage.Full (page : ScannedPage) (limit examined bytes size : Nat) : Prop :=
  examined = maxScannedEntries ∨ page.records.length = limit ∨
    (page.records ≠ [] ∧ maxPageBytes < bytes + size)

instance (page : ScannedPage) (limit examined bytes size : Nat) :
    Decidable (page.Full limit examined bytes size) :=
  inferInstanceAs (Decidable (_ ∨ _))

/-- Examine an entry, and return its record if its group is wanted. -/
def ScannedPage.examine (page : ScannedPage) (entry : ChangeEntry) : ScannedPage :=
  { page with
    lastExamined := some entry
    records :=
      if groups entry.kind.group then page.records ++ [.ofEntry entry] else page.records }

/-- The scan loop over the merged entries. -/
def scanEntries (groups : MetadataChangeGroups) («until» : Option Nat) (limit : Nat) :
    List ChangeEntry → (examined bytes : Nat) → ScannedPage → ScannedPage
  | [], _, _, page => page
  | entry :: rest, examined, bytes, page =>
    if ∃ bound ∈ «until», bound < entry.timestamp then page
    else if page.Full limit examined bytes (wantedSize groups entry) then
      { page with hasMore := true }
    else
      scanEntries groups «until» limit rest (examined + 1) (bytes + wantedSize groups entry)
        (page.examine groups entry)

variable (start : Position)

/-- The entries of a ring the scan starts with. -/
def afterStart (since : Option Nat) (ring : Ring) : List ChangeEntry :=
  let after := partitionPoint (fun e => e.position ≤ start) ring.entries
  let sinceIndex := match since with
    | none => 0
    | some since => partitionPoint (fun e => e.timestamp < since) ring.entries
  ring.entries.drop (max after sinceIndex)

/-- The requested entries after `start`, by position. -/
def merged (since : Option Nat) : List ChangeEntry :=
  (v.rings.map (afterStart start since)).foldl (Lib.mergeByKey ChangeEntry.position) []

def scan (since «until» : Option Nat) (limit : Nat) : ScannedPage :=
  scanEntries v.groups «until» limit (v.merged start since) 0 0 {}

end LogView

/-- A page scanned from `start`; without an examined entry the cursor stays where it was. -/
def scannedPage (v : LogView) (logId : Nat) (query : MetadataChangesQuery) (start : Position)
    (supplied : MetadataChangeCursor) : GetMetadataChangesResponse :=
  let page := v.scan start query.since query.until query.limit
  { v.answer .ok none with
    next := some (match page.lastExamined with
      | some entry => entry.cursor logId
      | none => supplied)
    hasMore := page.hasMore
    records := page.records }

def changePage (log : ChangeLog) (headOp : Nat) (query : MetadataChangesQuery)
    (groups : MetadataChangeGroups) : Except ChangePageError GetMetadataChangesResponse :=
  let v : LogView := ⟨log, groups, headOp⟩
  let supplied := match query.start with
    | .after cursor => some cursor
    | _ => none
  if query.start = .current then .error .invalidCommand
  else match log.logId with
    | none => .ok (v.answer .behind supplied)
    | some logId =>
      match query.start with
      | .latest => .ok (v.answer .ok (some (v.latestCursor logId)))
      -- a partly retained floor operation is skipped whole
      | .earliest => .ok (scannedPage v logId query (toLex ((ofLex v.floor).1, maxOrdinal))
          (v.latestCursor logId))
      | .after cursor =>
        match v.check cursor with
        | .valid start => .ok (scannedPage v logId query start cursor)
        | .behind => .ok (v.answer .behind supplied)
        | .expired => .ok (v.answer .expired none)
        | .reset => .ok (v.answer .reset none)
      | .current => .error .invalidCommand

end Iggy
