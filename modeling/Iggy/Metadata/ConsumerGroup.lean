import Iggy.Lib.SortedMap
import Iggy.Metadata.IdSlab
import Mathlib.Algebra.Group.Nat.Defs
import Mathlib.Data.List.MinMax

/-!
# Consumer groups

Source: consumer_group.rs:111-398, 691-1180; stream.rs:2903-3074.

Who owns which partition of a topic for one group. A change of the membership or of the partitions
only decides successors (`rebalanceMembers`); the owner changes when the partition's log reports the
successor installed (`completeRevocation`). The lists a member polls from are derived from the
assignments.

The state is one group with the partitions of its topic. The handlers resolve stream, topic and
group and refuse a request while a lifecycle action blocks it before they reach the code here; a
refused request is no step.
-/

namespace Iggy

open Lib

structure ConsumerGroupOwner where
  clientId : Nat
  session : Nat
  /-- The metadata op that decided this owner. -/
  generation : Nat
  deriving DecidableEq

def ConsumerGroupOwner.isUnassigned (o : ConsumerGroupOwner) : Bool :=
  o.clientId == 0 && o.session == 0

structure PendingOwnership where
  owner : ConsumerGroupOwner
  metadataOp : Nat
  createdAt : Nat
  skipDrain : Bool
  deriving DecidableEq

structure ConsumerGroupAssignment where
  incarnation : Nat
  owner : Option ConsumerGroupOwner
  pending : Option PendingOwnership
  deriving DecidableEq

structure InstallConsumerGroupOwnerRequest where
  incarnation : Nat
  groupId : Nat
  owner : ConsumerGroupOwner
  metadataOp : Nat
  deriving DecidableEq

structure TransitionPartitionHistoryRequest where
  incarnation : Nat
  metadataOp : Nat
  deriving DecidableEq

structure ConsumerGroupMember where
  id : Nat
  clientId : Nat
  session : Option Nat
  partitions : List Nat
  pendingRevocations : List Nat
  deriving DecidableEq

namespace ConsumerGroupMember

variable (m : ConsumerGroupMember)

/-- Owned partitions without those whose handoff is pending. -/
def pollablePartitions : List Nat :=
  m.partitions.filter fun id => !m.pendingRevocations.contains id

def isPollable (partitionId : Nat) : Bool :=
  m.partitions.contains partitionId && !m.pendingRevocations.contains partitionId

/-- `owner.client_id == member.client_id && Some(owner.session) == member.session`. -/
def holds (o : ConsumerGroupOwner) : Bool :=
  o.clientId == m.clientId && some o.session == m.session

end ConsumerGroupMember

/-- What the group reads of a partition: its id and the revision that created it. -/
structure TopicPartition where
  id : Nat
  createdRevision : Nat
  deriving DecidableEq

structure ConsumerGroup where
  id : Nat
  generation : Nat
  members : IdSlab ConsumerGroupMember
  assignments : SortedMap Nat ConsumerGroupAssignment
  name : String := ""

namespace ConsumerGroup

def new (id : Nat) : ConsumerGroup where
  id := id
  generation := 0
  members := .new
  assignments := .empty

/-! ## Balancing -/

variable (g : ConsumerGroup)

/-- The member that holds the partition, or will once its handoff is done. -/
def currentIndex (members : List (Nat × Nat)) (p : TopicPartition) : Option Nat := do
  let assignment ← g.assignments.get? p.id
  if assignment.incarnation ≠ p.createdRevision then none
  else
    let owner ← (assignment.pending.map PendingOwnership.owner).or assignment.owner
    members.findIdx? (· == (owner.clientId, owner.session))

/-- Members give up partitions above their capacity, from the last partition on. -/
def releaseOverfull (capacities : List Nat) :
    List (Option Nat) → List Nat → List (Option Nat) × List Nat
  | [], loads => ([], loads)
  | none :: rest, loads =>
    let (kept, loads) := releaseOverfull capacities rest loads
    (none :: kept, loads)
  | some index :: rest, loads =>
    let (kept, loads) := releaseOverfull capacities rest loads
    if loads.getD index 0 > capacities.getD index 0 then
      (none :: kept, loads.modify index (· - 1))
    else (some index :: kept, loads)

/-- The first of the least loaded members with room. -/
def leastLoaded (capacities loads : List Nat) : Option Nat :=
  ((loads.zipIdx.filter fun (load, index) => load < capacities.getD index 0).argmin Prod.fst).map
    Prod.snd

/-- Open partitions go to members with room, from the first partition on. -/
def fillOpen (capacities : List Nat) : List Nat → List (Option Nat) → List (Option Nat)
  | _, [] => []
  | loads, some index :: rest => some index :: fillOpen capacities loads rest
  | loads, none :: rest =>
    match leastLoaded capacities loads with
    | some index => some index :: fillOpen capacities (loads.modify index (· + 1)) rest
    | none => none :: fillOpen capacities loads rest

variable (partitions : List TopicPartition)

def balancedMemberIndices (members : List (Nat × Nat)) : List (Option Nat) :=
  let desired := partitions.map (g.currentIndex members)
  let loads := (List.range members.length).map fun index => desired.count (some index)
  if members.isEmpty then desired
  else
    let fairShare := partitions.length / members.length
    let rankedMembers := (List.range members.length).insertionSort
      fun i j => loads.getD j 0 ≤ loads.getD i 0
    let extra := rankedMembers.take (partitions.length % members.length)
    let capacities := (List.range members.length).map fun index =>
      fairShare + if index ∈ extra then 1 else 0
    let (kept, loads) := releaseOverfull capacities desired loads
    fillOpen capacities loads kept

@[simp] theorem length_fillOpen (capacities : List Nat) (loads : List Nat)
    (desired : List (Option Nat)) : (fillOpen capacities loads desired).length = desired.length := by
  induction desired generalizing loads with
  | nil => rfl
  | cons slot rest ih =>
    cases slot with
    | some index => simp [fillOpen, ih]
    | none =>
      simp only [fillOpen]
      split <;> simp [ih]

@[simp] theorem length_releaseOverfull (capacities : List Nat) (desired : List (Option Nat))
    (loads : List Nat) : (releaseOverfull capacities desired loads).1.length = desired.length := by
  induction desired with
  | nil => rfl
  | cons slot rest ih =>
    cases slot with
    | none => simp [releaseOverfull, ih]
    | some index =>
      simp only [releaseOverfull]
      split <;> simp [ih]

/-- So the loop that reads them by position never runs out. -/
@[simp] theorem length_balancedMemberIndices (members : List (Nat × Nat)) :
    (g.balancedMemberIndices partitions members).length = partitions.length := by
  unfold balancedMemberIndices
  split
  · exact List.length_map _
  · simp only [length_fillOpen, length_releaseOverfull, List.length_map]

/-! ## Deciding and installing owners -/

/-- Those with a session. -/
def owningMembers : List (Nat × Nat) :=
  g.members.iter.filterMap fun (_, m) =>
    (m.session.filter (· ≠ 0)).map fun session => (m.clientId, session)

end ConsumerGroup

namespace ConsumerGroupAssignment

/-- A row for the incarnation; one left from another incarnation starts over. -/
def forIncarnation : Option ConsumerGroupAssignment → Nat → ConsumerGroupAssignment
  | none, incarnation => ⟨incarnation, none, none⟩
  | some a, incarnation => if a.incarnation = incarnation then a else ⟨incarnation, none, none⟩

/-- The body of the loop of `rebalance_members`, for the member the partition is to go to. -/
def rebalance (a : ConsumerGroupAssignment) (members : List (Nat × Nat))
    (member : Nat × Nat) (metadataOp now : Nat) : ConsumerGroupAssignment :=
  let desired : ConsumerGroupOwner := ⟨member.1, member.2, metadataOp⟩
  let sameMember (owner : ConsumerGroupOwner) : Bool := (owner.clientId, owner.session) == member
  let ownerLeft := a.owner.all fun owner => !members.contains (owner.clientId, owner.session)
  match a.pending with
  | some pending =>
    if sameMember pending.owner then
      -- only a member owner can still commit, so the drain wait follows the membership
      { a with pending := some { pending with skipDrain := ownerLeft } }
    else
      -- the owner drains the same work for any successor: the first handoff's deadline stays
      { a with pending := some ⟨desired, metadataOp, pending.createdAt, ownerLeft⟩ }
  | none =>
    if a.owner.any sameMember || (a.owner.isNone && desired.isUnassigned) then a
    else { a with pending := some ⟨desired, metadataOp, now, ownerLeft⟩ }

end ConsumerGroupAssignment

namespace ConsumerGroup

variable (g : ConsumerGroup)

def rebuildMemberAssignments : ConsumerGroup :=
  { g with members := g.members.map fun m =>
      let owned := g.assignments.entries.filter fun (_, a) => a.owner.any m.holds
      { m with partitions := owned.map Prod.fst
               pendingRevocations := (owned.filter fun (_, a) => a.pending.isSome).map Prod.fst } }

/-- The member's identity for the desired index; no member at all is the pair of zeros. -/
def desiredMember (members : List (Nat × Nat)) (index : Option Nat) : Nat × Nat :=
  (index.bind (members[·]?)).getD (0, 0)

/-- The loop of `rebalance_members` over the partitions and the members they are to go to. -/
def decideOwners (members : List (Nat × Nat)) (metadataOp now : Nat) :
    List (TopicPartition × Option Nat) → SortedMap Nat ConsumerGroupAssignment →
      SortedMap Nat ConsumerGroupAssignment
  | [], assignments => assignments
  | (p, index) :: rest, assignments =>
    decideOwners members metadataOp now rest <| assignments.upsert p.id fun a =>
      (ConsumerGroupAssignment.forIncarnation a p.createdRevision).rebalance members
        (desiredMember members index) metadataOp now

def rebalanceMembers (partitions : List TopicPartition) (metadataOp now : Nat) : ConsumerGroup :=
  if g.members.isEmpty && g.assignments.isEmpty then { g with generation := g.generation + 1 }
  else
    let members := g.owningMembers
    let g := { g with generation := g.generation + 1
                      assignments := g.assignments.retain fun id =>
                        (partitions.map TopicPartition.id).contains id }
    let desired := partitions.zip (g.balancedMemberIndices partitions members)
    { g with assignments := decideOwners members metadataOp now desired g.assignments
      }.rebuildMemberAssignments

/-- What a completed handoff does to one member's lists. -/
def handOver (partitionId : Nat) (previous : Option ConsumerGroupOwner) (successor : ConsumerGroupOwner)
    (m : ConsumerGroupMember) : ConsumerGroupMember :=
  let m := if previous.any m.holds then
      { m with partitions := m.partitions.filter (· ≠ partitionId)
               pendingRevocations := m.pendingRevocations.filter (· ≠ partitionId) }
    else m
  if m.holds successor then
    { m with partitions := (partitionId :: m.partitions).insertionSort (· ≤ ·) }
  else m

/-- `complete_revocation`; `none` where it returns `false`. -/
def completeRevocation (partitionId : Nat) (installation : InstallConsumerGroupOwnerRequest)
    (partitionOp : Nat) : Option ConsumerGroup := do
  if installation.groupId ≠ g.id ∨ partitionOp = 0 then none
  else
    let assignment ← g.assignments.get? partitionId
    let pending ← assignment.pending
    if assignment.incarnation ≠ installation.incarnation ∨ pending.owner ≠ installation.owner ∨
        pending.metadataOp ≠ installation.metadataOp then none
    else
      some { g with
        generation := g.generation + 1
        assignments := g.assignments.upsert partitionId fun _ =>
          { assignment with
            owner := if pending.owner.isUnassigned then none else some pending.owner
            pending := none }
        members := g.members.map (handOver partitionId assignment.owner pending.owner) }

end ConsumerGroup

/-! ## Requests -/

inductive PartitionResizePolicy
  | mutable | fixed
  deriving DecidableEq

structure GroupTopic where
  partitions : List TopicPartition
  resizePolicy : PartitionResizePolicy
  group : ConsumerGroup

def maxPartitions : Nat := 1000000

/-- The ids `absolute_partition_ids_fault` lets a topic start with (stream.rs:2204-2217). -/
structure PartitionIdsValid (partitions : List TopicPartition) : Prop where
  nodup : (partitions.map TopicPartition.id).Nodup
  lt : ∀ p ∈ partitions, p.id < maxPartitions

/-- `JoinConsumerGroupRequest` as its decoder lets it through. -/
structure JoinConsumerGroupRequest where
  clientId : Nat
  session : Nat
  identified : clientId ≠ 0 ∧ session ≠ 0

namespace GroupTopic

variable (t : GroupTopic)

def rebalance (metadataOp now : Nat) : GroupTopic :=
  { t with group := t.group.rebalanceMembers t.partitions metadataOp now }

def findMember (clientId : Nat) : Option (Nat × ConsumerGroupMember) :=
  t.group.members.iter.find? fun (_, m) => m.clientId == clientId

def setSession (key session : Nat) : GroupTopic :=
  { t with group := { t.group with
      members := t.group.members.modify key fun m => { m with session := some session } } }

/-- A join; a repeated one keeps the membership, under another session it moves it there. -/
def join (request : JoinConsumerGroupRequest) (metadataOp now : Nat) : GroupTopic :=
  match t.findMember request.clientId with
  | some (key, m) =>
    if m.session = some request.session then t
    else (t.setSession key request.session).rebalance metadataOp now
  | none =>
    let m : ConsumerGroupMember :=
      ⟨t.group.members.vacantKey, request.clientId, some request.session, [], []⟩
    { t with group := { t.group with members := t.group.members.insert m } }.rebalance metadataOp now

def leave (clientId metadataOp now : Nat) : GroupTopic :=
  match t.findMember clientId with
  | some (key, _) =>
    { t with group := { t.group with members := t.group.members.remove key } }.rebalance metadataOp now
  | none => t

/-- `RemoveConsumerGroupMembers`: every client in turn, all in one op. -/
def removeMembers (clientIds : List Nat) (metadataOp now : Nat) : GroupTopic :=
  clientIds.foldl (fun t clientId => t.leave clientId metadataOp now) t

/-- `RefreshConsumerGroupSession`: every membership of the client moves to the session. -/
def refreshSession (clientId session metadataOp now : Nat) : GroupTopic :=
  let memberships := (t.group.members.iter.filter fun (_, m) => m.clientId == clientId).map Prod.fst
  memberships.foldl (fun t key => match t.group.members.get key with
    | none => t
    | some m =>
      if m.session ≠ some session then (t.setSession key session).rebalance metadataOp now else t) t

/-- One past the highest id in use. -/
def basePartitionId : Nat :=
  ((t.partitions.map TopicPartition.id).max?.bind fun id =>
    if id + 1 < 2 ^ 64 then some (id + 1) else none).getD 0

/-- The ids a creation resolves to, or `none` where it is refused. -/
def resolvePartitionIds (offsets : List Nat) : Option (List Nat) :=
  if 2 ^ 32 ≤ t.basePartitionId then none
  else
    have resolved := offsets.map (· + t.basePartitionId)
    if (∀ id ∈ resolved, id < 2 ^ 32 ∧ id < maxPartitions) ∧ resolved.Nodup then some resolved
    else none

/-- `CreatePartitions`; `revision` is the topic state's new revision. -/
def createPartitions (offsets : List Nat) (revision metadataOp now : Nat) : GroupTopic :=
  match t.resizePolicy, t.resolvePartitionIds offsets with
  | .fixed, _ => t
  | .mutable, none => t
  | .mutable, some ids =>
    { t with partitions := t.partitions ++ ids.map fun id => TopicPartition.mk id revision }.rebalance metadataOp now

/-- `DeletePartitions`: the last `count` of them. -/
def deletePartitions (count metadataOp now : Nat) : GroupTopic :=
  match t.resizePolicy with
  | .fixed => t
  | .mutable =>
    if t.partitions.length < count ∨ count = 0 then t
    else { t with partitions := t.partitions.take (t.partitions.length - count) }.rebalance
      metadataOp now

def complete (partitionId : Nat) (installation : InstallConsumerGroupOwnerRequest)
    (partitionOp : Nat) : GroupTopic :=
  match t.group.completeRevocation partitionId installation partitionOp with
  | some group => { t with group }
  | none => t

end GroupTopic

inductive GroupCommand
  | join (request : JoinConsumerGroupRequest)
  | leave (clientId : Nat)
  | removeMembers (clientIds : List Nat)
  | refreshSession (clientId session : Nat)
  | createPartitions (offsets : List Nat) (revision : Nat)
  | deletePartitions (count : Nat)
  | complete (partitionId : Nat) (installation : InstallConsumerGroupOwnerRequest) (partitionOp : Nat)

def GroupTopic.apply (t : GroupTopic) (metadataOp now : Nat) : GroupCommand → GroupTopic
  | .join request => t.join request metadataOp now
  | .leave clientId => t.leave clientId metadataOp now
  | .removeMembers clientIds => t.removeMembers clientIds metadataOp now
  | .refreshSession clientId session => t.refreshSession clientId session metadataOp now
  | .createPartitions offsets revision => t.createPartitions offsets revision metadataOp now
  | .deletePartitions count => t.deletePartitions count metadataOp now
  | .complete partitionId installation partitionOp => t.complete partitionId installation partitionOp

end Iggy
