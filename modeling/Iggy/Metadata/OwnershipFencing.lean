import Iggy.Metadata.ConsumerGroup

/-!
# Ownership of a partition changes only by its pending decision

A row of the assignments changes in two ways: `Redecided` for everything that rebalances (an owner
stays or goes, a decision stays or is of this op), and the one completion that installs the pending
decision. The lists members poll from follow the rows (`GroupTopic.WellFormed`), and the generations
of installed owners grow because a decision is always younger than every owner installed before it
(`GroupTopic.Ordered`).
-/

namespace Iggy

open List Lib Option ConsumerGroupMember SortedMap GroupTopic ConsumerGroupAssignment IdSlab

/-! ## What rebalancing does to the rows -/

/-- Owners are not installed, and a decision is one of `a` (for the same incarnation) or of the op.
-/
structure RowRedecided (a : Option ConsumerGroupAssignment) (a' : ConsumerGroupAssignment)
    (metadataOp : Nat) : Prop where
  owner : ∀ o, a'.owner = some o → ∃ b, a = some b ∧ b.incarnation = a'.incarnation ∧ b.owner = some o
  pending : ∀ d, a'.pending = some d → (d.owner.generation = metadataOp ∧ d.metadataOp = metadataOp) ∨
    ∃ b d₀, a = some b ∧ b.pending = some d₀ ∧ d.owner = d₀.owner ∧ d.metadataOp = d₀.metadataOp

def Redecided (A A' : SortedMap Nat ConsumerGroupAssignment) (metadataOp : Nat) : Prop :=
  ∀ id a', A'.get? id = some a' → RowRedecided (A.get? id) a' metadataOp

theorem Redecided.refl (A : SortedMap Nat ConsumerGroupAssignment) (metadataOp : Nat) :
    Redecided A A metadataOp :=
  fun _ a' h => ⟨fun _ ho => ⟨a', h, rfl, ho⟩, fun d hd => .inr ⟨a', d, h, hd, rfl, rfl⟩⟩

variable {A : SortedMap Nat ConsumerGroupAssignment}

theorem Redecided.trans {B C : SortedMap Nat ConsumerGroupAssignment} {metadataOp : Nat}
    (hAB : Redecided A B metadataOp) (hBC : Redecided B C metadataOp) :
    Redecided A C metadataOp := by
  intro id c hc
  obtain ⟨howner, hpending⟩ := hBC id c hc
  constructor
  · intro o ho
    obtain ⟨b, hb, hincarnation, hbo⟩ := howner o ho
    obtain ⟨a, ha, hinc', hao⟩ := (hAB id b hb).owner o hbo
    exact ⟨a, ha, hinc'.trans hincarnation, hao⟩
  · intro d hd
    obtain hnow | ⟨b, d₁, hb, hbd, hown, hop⟩ := hpending d hd
    · exact .inl hnow
    · obtain ⟨hgen, hmeta⟩ | ⟨a, d₀, ha, had, hown', hop'⟩ := (hAB id b hb).pending d₁ hbd
      · exact .inl ⟨hown ▸ hgen, hop ▸ hmeta⟩
      · exact .inr ⟨a, d₀, ha, had, hown.trans hown', hop.trans hop'⟩

namespace ConsumerGroupAssignment

variable (a : Option ConsumerGroupAssignment)

theorem incarnation_forIncarnation (incarnation : Nat) :
    (forIncarnation a incarnation).incarnation = incarnation := by
  cases a with
  | none => rfl
  | some a =>
    by_cases h : a.incarnation = incarnation
    · simp only [forIncarnation, if_pos h]; exact h
    · simp only [forIncarnation, if_neg h]

theorem of_forIncarnation (incarnation : Nat) :
    ((forIncarnation a incarnation).owner = none ∧ (forIncarnation a incarnation).pending = none) ∨
      a = some (forIncarnation a incarnation) := by
  cases a with
  | none => exact .inl ⟨rfl, rfl⟩
  | some a =>
    by_cases h : a.incarnation = incarnation
    · exact .inr (by simp only [forIncarnation, if_pos h])
    · exact .inl (by simp only [forIncarnation, if_neg h, and_self])

variable (a : ConsumerGroupAssignment) (members : List (Nat × Nat)) (member : Nat × Nat)
  (metadataOp now : Nat)

theorem rebalance_incarnation :
    (a.rebalance members member metadataOp now).incarnation = a.incarnation := by
  simp only [rebalance]
  repeat' split
  all_goals rfl

theorem rebalance_owner : (a.rebalance members member metadataOp now).owner = a.owner := by
  simp only [rebalance]
  repeat' split
  all_goals rfl

theorem rebalance_pending {d : PendingOwnership}
    (h : (a.rebalance members member metadataOp now).pending = some d) :
    (d.owner.generation = metadataOp ∧ d.metadataOp = metadataOp) ∨
      ∃ d₀, a.pending = some d₀ ∧ d.owner = d₀.owner ∧ d.metadataOp = d₀.metadataOp := by
  simp only [rebalance] at h
  split at h
  case h_1 pending hpending =>
    split at h
    · cases h; exact .inr ⟨pending, hpending, rfl, rfl⟩
    · cases h; exact .inl ⟨rfl, rfl⟩
  case h_2 hpending =>
    split at h
    · rw [hpending] at h; exact nomatch h
    · cases h; exact .inl ⟨rfl, rfl⟩

theorem redecided_rebalance (a : Option ConsumerGroupAssignment) (incarnation : Nat) :
    RowRedecided a ((forIncarnation a incarnation).rebalance members member metadataOp now)
      metadataOp := by
  obtain ⟨hnoOwner, hnoPending⟩ | ha := of_forIncarnation a incarnation
  · constructor
    · intro o ho
      rw [rebalance_owner, hnoOwner] at ho
      exact nomatch ho
    · intro d hd
      obtain hnow | ⟨d₀, hd₀, -⟩ := rebalance_pending _ _ _ _ _ hd
      · exact .inl hnow
      · rw [hnoPending] at hd₀; exact nomatch hd₀
  · constructor
    · intro o ho
      rw [rebalance_owner] at ho
      exact ⟨_, ha, (rebalance_incarnation ..).symm, ho⟩
    · intro d hd
      obtain hnow | ⟨d₀, hd₀, hown, hop⟩ := rebalance_pending _ _ _ _ _ hd
      · exact .inl hnow
      · exact .inr ⟨_, d₀, ha, hd₀, hown, hop⟩

end ConsumerGroupAssignment

namespace ConsumerGroup

variable {members : List (Nat × Nat)} {metadataOp now : Nat}

theorem get?_decideOwners {desired : List (TopicPartition × Option Nat)}
    (hids : (desired.map fun x => x.1.id).Nodup) (A : SortedMap Nat ConsumerGroupAssignment)
    (id : Nat) :
    ((decideOwners members metadataOp now desired A).get? id = A.get? id ∧
      ∀ x ∈ desired, x.1.id ≠ id) ∨
    ∃ x ∈ desired, x.1.id = id ∧ (decideOwners members metadataOp now desired A).get? id =
      some ((forIncarnation (A.get? id) x.1.createdRevision).rebalance
        members (desiredMember members x.2) metadataOp now) := by
  induction desired generalizing A with
  | nil => exact .inl ⟨rfl, nofun⟩
  | cons x rest ih =>
    obtain ⟨hx, hrest⟩ := nodup_cons.mp hids
    simp only [decideOwners]
    by_cases hid : x.1.id = id
    · subst hid
      refine .inr ⟨x, mem_cons_self, rfl, ?_⟩
      obtain ⟨hget, -⟩ | ⟨y, hy, hyx, -⟩ := ih hrest (A.upsert x.1.id _)
      · rw [hget, get?_upsert, if_pos rfl]
      · exact absurd (List.mem_map.mpr ⟨y, hy, hyx⟩) hx
    · have hother (f) : (A.upsert x.1.id f).get? id = A.get? id := by
        rw [get?_upsert, if_neg (Ne.symm hid)]
      obtain ⟨hget, hne⟩ | ⟨y, hy, hyx, hget⟩ := ih hrest (A.upsert x.1.id _)
      · exact .inl ⟨hget.trans (hother _), forall_mem_cons.mpr ⟨hid, hne⟩⟩
      · exact .inr ⟨y, mem_cons_of_mem _ hy, hyx, hother _ ▸ hget⟩

end ConsumerGroup

/-! ## The lists members poll from -/

/-- The member's lists are read off the rows. -/
structure ConsumerGroupMember.Follows (m : ConsumerGroupMember)
    (A : SortedMap Nat ConsumerGroupAssignment) : Prop where
  partitions : ∀ id, id ∈ m.partitions ↔ ∃ a, A.get? id = some a ∧ a.owner.any m.holds = true
  pendingRevocations : ∀ id, id ∈ m.pendingRevocations ↔
    ∃ a, A.get? id = some a ∧ a.owner.any m.holds = true ∧ a.pending.isSome = true

theorem ConsumerGroupMember.Follows.of_isPollable {m : ConsumerGroupMember} (h : m.Follows A)
    {id : Nat} (hpoll : m.isPollable id = true) :
    ∃ a, A.get? id = some a ∧ a.pending = none ∧ a.owner.any m.holds = true := by
  obtain ⟨howned, hnot⟩ : id ∈ m.partitions ∧ id ∉ m.pendingRevocations := by
    simpa [isPollable] using hpoll
  obtain ⟨a, hget, hholds⟩ := (h.partitions id).mp howned
  refine ⟨a, hget, ?_, hholds⟩
  by_contra hpending
  exact hnot ((h.pendingRevocations id).mpr
    ⟨a, hget, hholds, isSome_iff_ne_none.mpr hpending⟩)

structure MembersDistinct (members : IdSlab ConsumerGroupMember) : Prop where
  named : ∀ k m, members.get k = some m → m.clientId ≠ 0
  distinct : ∀ k k' m m', members.get k = some m → members.get k' = some m' →
    m.clientId = m'.clientId → k = k'

structure GroupTopic.WellFormed (t : GroupTopic) : Prop where
  ids : PartitionIdsValid t.partitions
  members : MembersDistinct t.group.members
  rows : ∀ id a, t.group.assignments.get? id = some a → ⟨id, a.incarnation⟩ ∈ t.partitions
  follows : ∀ k m, t.group.members.get k = some m → m.Follows t.group.assignments

/-! ## Rebalancing -/

namespace ConsumerGroup

variable {g : ConsumerGroup} {partitions : List TopicPartition} {metadataOp now : Nat} {k : Nat}
  {m : ConsumerGroupMember}

theorem follows_rebuild (h : g.rebuildMemberAssignments.members.get k = some m) :
    m.Follows g.rebuildMemberAssignments.assignments := by
  simp only [rebuildMemberAssignments, IdSlab.get_map, Option.map_eq_some_iff] at h
  obtain ⟨m₀, -, rfl⟩ := h
  constructor
  · intro id
    simp only [List.mem_map, mem_filter, Prod.exists, exists_and_right, exists_eq_right]
    exact exists_congr fun a => and_congr_left' mem_entries
  · intro id
    simp only [List.mem_map, mem_filter, Prod.exists, exists_and_right, exists_eq_right]
    exact exists_congr fun a => by rw [mem_entries, and_assoc]; rfl

theorem rebuild_get (h : g.rebuildMemberAssignments.members.get k = some m) :
    ∃ m₀, g.members.get k = some m₀ ∧ m.clientId = m₀.clientId := by
  simp only [rebuildMemberAssignments, IdSlab.get_map, map_eq_some_iff] at h
  obtain ⟨m₀, hm₀, rfl⟩ := h
  exact ⟨m₀, hm₀, rfl⟩

/-- When the loop starts from the rows of the topic's partitions. -/
theorem row_of_decideOwners {members : List (Nat × Nat)} {indices : List (Option Nat)}
    {A : SortedMap Nat ConsumerGroupAssignment}
    (hids : (partitions.map TopicPartition.id).Nodup) (hlen : indices.length = partitions.length)
    {id : Nat} {a' : ConsumerGroupAssignment}
    (h : (decideOwners members metadataOp now (partitions.zip indices)
      (A.retain fun id => (partitions.map TopicPartition.id).contains id)).get? id = some a') :
    ⟨id, a'.incarnation⟩ ∈ partitions ∧ RowRedecided (A.get? id) a' metadataOp := by
  have hfst : (partitions.zip indices).map Prod.fst = partitions :=
    map_fst_zip (le_of_eq hlen.symm)
  have hnodup : ((partitions.zip indices).map fun x => x.1.id).Nodup := by
    have hmap : ((partitions.zip indices).map fun x => x.1.id) =
        ((partitions.zip indices).map Prod.fst).map TopicPartition.id := by
      rw [List.map_map]; rfl
    rw [hmap, hfst]; exact hids
  obtain ⟨hget, hnone⟩ | ⟨x, hx, rfl, hget⟩ := get?_decideOwners hnodup
    (A.retain fun id => (partitions.map TopicPartition.id).contains id) id
  · -- a row that was kept but not visited would belong to no partition
    rw [hget, get?_retain] at h
    split_ifs at h with hkeep
    obtain ⟨p, hp, rfl⟩ := mem_map.mp (contains_iff_mem.mp hkeep)
    rw [← hfst] at hp
    obtain ⟨x, hx, rfl⟩ := mem_map.mp hp
    exact absurd rfl (hnone x hx)
  · have hp : x.1 ∈ partitions := (of_mem_zip hx).1
    have hkeep : (partitions.map TopicPartition.id).contains x.1.id = true :=
      contains_iff_mem.mpr (mem_map_of_mem hp)
    rw [hget, get?_retain, if_pos hkeep] at h
    cases h
    refine ⟨?_, redecided_rebalance ..⟩
    rw [rebalance_incarnation, incarnation_forIncarnation]
    exact hp

/-- **Rebalancing**, row by row: a row is that of a partition of the topic, and what it holds was
there before or was decided now. -/
theorem rebalanceMembers_row (hids : (partitions.map TopicPartition.id).Nodup) {id : Nat}
    {a' : ConsumerGroupAssignment}
    (h : (g.rebalanceMembers partitions metadataOp now).assignments.get? id = some a') :
    ⟨id, a'.incarnation⟩ ∈ partitions ∧ RowRedecided (g.assignments.get? id) a' metadataOp := by
  unfold rebalanceMembers at h
  split at h
  case isTrue hempty =>
    rw [get?_of_isEmpty (Bool.and_eq_true_iff.mp hempty).2] at h
    exact nomatch h
  case isFalse => exact row_of_decideOwners hids (length_balancedMemberIndices ..) h

section

variable (h : (g.rebalanceMembers partitions metadataOp now).members.get k = some m)
include h

theorem rebalanceMembers_get : ∃ m₀, g.members.get k = some m₀ ∧ m.clientId = m₀.clientId := by
  unfold rebalanceMembers at h
  split at h
  case isTrue => exact ⟨m, h, rfl⟩
  case isFalse =>
    have hget := rebuild_get h
    exact hget

theorem rebalanceMembers_follows :
    m.Follows (g.rebalanceMembers partitions metadataOp now).assignments := by
  unfold rebalanceMembers at h ⊢
  split at h
  case isTrue hempty =>
    rw [get_of_isEmpty (Bool.and_eq_true_iff.mp hempty).1] at h
    exact nomatch h
  case isFalse hne => rw [if_neg hne]; exact follows_rebuild h

end

end ConsumerGroup

namespace MembersDistinct

variable {members members' : IdSlab ConsumerGroupMember}

section

variable (h : MembersDistinct members)
include h

theorem of_same
    (hsame : ∀ k m, members'.get k = some m → ∃ m₀, members.get k = some m₀ ∧ m.clientId = m₀.clientId) :
    MembersDistinct members' := by
  constructor
  · intro k m hm
    obtain ⟨m₀, hm₀, hid⟩ := hsame k m hm
    exact hid ▸ h.named k m₀ hm₀
  · intro k k' m m' hm hm' heq
    obtain ⟨m₀, hm₀, hid⟩ := hsame k m hm
    obtain ⟨m₁, hm₁, hid'⟩ := hsame k' m' hm'
    exact h.distinct k k' m₀ m₁ hm₀ hm₁ (hid ▸ hid' ▸ heq)

theorem insert {m : ConsumerGroupMember} (hnamed : m.clientId ≠ 0)
    (hnew : ∀ k m', members.get k = some m' → m'.clientId ≠ m.clientId) :
    MembersDistinct (members.insert m) := by
  constructor
  · intro k m' hm'
    rw [get_insert] at hm'
    split at hm'
    · exact some.inj hm' ▸ hnamed
    · exact h.named k m' hm'
  · intro k k' m₁ m₂ hm₁ hm₂ heq
    rw [get_insert] at hm₁ hm₂
    split at hm₁ <;> split at hm₂
    case isTrue.isTrue hk hk' => rw [hk, hk']
    case isTrue.isFalse => cases hm₁; exact absurd heq.symm (hnew k' m₂ hm₂)
    case isFalse.isTrue => cases hm₂; exact absurd heq (hnew k m₁ hm₁)
    case isFalse.isFalse => exact h.distinct k k' m₁ m₂ hm₁ hm₂ heq

theorem remove (key : Nat) : MembersDistinct (members.remove key) := by
  refine h.of_same fun k m hm => ?_
  rw [get_remove] at hm
  split_ifs at hm
  exact ⟨m, hm, rfl⟩

theorem modify (key : Nat) {f : ConsumerGroupMember → ConsumerGroupMember}
    (hf : ∀ m, (f m).clientId = m.clientId) : MembersDistinct (members.modify key f) := by
  refine h.of_same fun k m hm => ?_
  rw [get_modify] at hm
  split at hm
  · obtain ⟨m₀, hm₀, rfl⟩ := map_eq_some_iff.mp hm
    exact ⟨m₀, hm₀, hf m₀⟩
  · exact ⟨m, hm, rfl⟩

end

end MembersDistinct

namespace GroupTopic

open ConsumerGroup

variable {t : GroupTopic} {metadataOp now : Nat}

theorem wellFormed_rebalance (hids : PartitionIdsValid t.partitions)
    (hmembers : MembersDistinct t.group.members) : (t.rebalance metadataOp now).WellFormed where
  ids := hids
  members := hmembers.of_same fun _ _ hm => rebalanceMembers_get hm
  rows _ _ h := (rebalanceMembers_row hids.nodup h).1
  follows _ _ hm := rebalanceMembers_follows hm

theorem redecided_rebalance (hids : PartitionIdsValid t.partitions) :
    Redecided t.group.assignments (t.rebalance metadataOp now).group.assignments metadataOp :=
  fun _ _ h => (rebalanceMembers_row hids.nodup h).2

structure Decides (t t' : GroupTopic) (metadataOp : Nat) : Prop where
  wellFormed : t'.WellFormed
  redecided : Redecided t.group.assignments t'.group.assignments metadataOp

theorem Decides.refl (h : t.WellFormed) : t.Decides t metadataOp := ⟨h, .refl _ _⟩

theorem Decides.trans {t₁ t₂ : GroupTopic} (h : t.Decides t₁ metadataOp)
    (h' : t₁.Decides t₂ metadataOp) : t.Decides t₂ metadataOp :=
  ⟨h'.wellFormed, h.redecided.trans h'.redecided⟩

theorem decides_members (h : t.WellFormed) {members : IdSlab ConsumerGroupMember}
    (hmembers : MembersDistinct members) :
    t.Decides ({ t with group := { t.group with members } }.rebalance metadataOp now) metadataOp :=
  ⟨wellFormed_rebalance h.ids hmembers,
    redecided_rebalance (t := { t with group := { t.group with members } }) h.ids⟩

theorem decides_partitions (h : t.WellFormed) {partitions : List TopicPartition}
    (hids : PartitionIdsValid partitions) :
    t.Decides ({ t with partitions }.rebalance metadataOp now) metadataOp :=
  ⟨wellFormed_rebalance hids h.members, redecided_rebalance (t := { t with partitions }) hids⟩

theorem decides_setSession (h : t.WellFormed) (key session metadataOp now : Nat) :
    t.Decides ((t.setSession key session).rebalance metadataOp now) metadataOp :=
  decides_members h (h.members.modify key fun _ => rfl)

theorem findMember_none {clientId : Nat} (h : t.findMember clientId = none) (k : Nat)
    (m : ConsumerGroupMember) (hm : t.group.members.get k = some m) : m.clientId ≠ clientId := by
  have hall := find?_eq_none.mp h (k, m) (mem_iter.mpr hm)
  simpa using hall

theorem decides_join (h : t.WellFormed) (request : JoinConsumerGroupRequest) :
    t.Decides (t.join request metadataOp now) metadataOp := by
  unfold join
  cases hfind : t.findMember request.clientId with
  | none =>
    exact decides_members h (h.members.insert request.identified.1 (findMember_none hfind))
  | some found =>
    obtain ⟨key, m⟩ := found
    simp only
    split
    · exact .refl h
    · exact decides_setSession h key request.session metadataOp now

theorem decides_leave (h : t.WellFormed) (clientId metadataOp now : Nat) :
    t.Decides (t.leave clientId metadataOp now) metadataOp := by
  unfold leave
  cases t.findMember clientId with
  | none => exact .refl h
  | some found => exact decides_members h (h.members.remove found.1)

theorem decides_removeMembers (h : t.WellFormed) (clientIds : List Nat) :
    t.Decides (t.removeMembers clientIds metadataOp now) metadataOp := by
  induction clientIds generalizing t with
  | nil => exact .refl h
  | cons clientId rest ih =>
    have hleave := decides_leave h clientId metadataOp now
    exact hleave.trans (ih hleave.wellFormed)

theorem decides_refreshSession (h : t.WellFormed) (clientId session : Nat) :
    t.Decides (t.refreshSession clientId session metadataOp now) metadataOp := by
  unfold refreshSession
  generalize List.map Prod.fst (t.group.members.iter.filter _) = keys
  induction keys generalizing t with
  | nil => exact .refl h
  | cons key rest ih =>
    rw [foldl_cons]
    cases t.group.members.get key with
    | none => exact ih h
    | some m =>
      simp only
      split
      · have hset := decides_setSession h key session metadataOp now
        exact hset.trans (ih hset.wellFormed)
      · exact ih h

theorem lt_basePartitionId (h : PartitionIdsValid t.partitions) {p : TopicPartition}
    (hp : p ∈ t.partitions) : p.id < t.basePartitionId := by
  have hmem : p.id ∈ t.partitions.map TopicPartition.id := mem_map_of_mem hp
  cases hmax : (t.partitions.map TopicPartition.id).max? with
  | none => rw [max?_eq_none_iff.mp hmax] at hmem; exact nomatch hmem
  | some top =>
    obtain ⟨htop, hle⟩ := max?_eq_some_iff.mp hmax
    obtain ⟨q, hq, rfl⟩ := mem_map.mp htop
    have hsmall : q.id + 1 < 2 ^ 64 := lt_of_le_of_lt (h.lt q hq) (by decide)
    simp only [basePartitionId, hmax, bind_some, if_pos hsmall, getD_some]
    exact Nat.lt_succ_of_le (hle p.id hmem)

/-- New partitions are numbered past the ids in use. -/
theorem ids_resolvePartitionIds (h : PartitionIdsValid t.partitions) {offsets ids : List Nat}
    (hresolve : t.resolvePartitionIds offsets = some ids) (revision : Nat) :
    PartitionIdsValid (t.partitions ++ ids.map fun id => TopicPartition.mk id revision) := by
  simp only [resolvePartitionIds, ite_none_left_eq_some, ite_none_right_eq_some,
    some.injEq] at hresolve
  obtain ⟨-, ⟨hbounds, hnodup⟩, rfl⟩ := hresolve
  constructor
  · rw [map_append, List.map_map]
    refine nodup_append.mpr ⟨h.nodup, by simpa [Function.comp_def] using hnodup, ?_⟩
    intro id hid id' hid'
    obtain ⟨p, hp, rfl⟩ := mem_map.mp hid
    obtain ⟨offset, -, rfl⟩ : ∃ offset, offset ∈ offsets ∧ offset + t.basePartitionId = id' := by
      simpa using hid'
    have hlt := lt_basePartitionId h hp
    omega
  · exact forall_mem_append.mpr ⟨h.lt, forall_mem_map.mpr fun id hid => (hbounds id hid).2⟩

theorem decides_createPartitions (h : t.WellFormed) (offsets : List Nat) (revision : Nat) :
    t.Decides (t.createPartitions offsets revision metadataOp now) metadataOp := by
  unfold createPartitions
  split
  · exact .refl h
  · exact .refl h
  · exact decides_partitions h (ids_resolvePartitionIds h.ids ‹_› revision)

theorem decides_deletePartitions (h : t.WellFormed) (count : Nat) :
    t.Decides (t.deletePartitions count metadataOp now) metadataOp := by
  unfold deletePartitions
  split
  · exact .refl h
  · split
    · exact .refl h
    · exact decides_partitions h
        ⟨h.ids.nodup.sublist ((take_sublist ..).map _), fun p hp => h.ids.lt p (mem_of_mem_take hp)⟩

end GroupTopic

/-! ## Completing a handoff -/

namespace ConsumerGroup

variable {partitionId id : Nat} {previous : Option ConsumerGroupOwner}
  {successor o : ConsumerGroupOwner} {m : ConsumerGroupMember}

@[simp] theorem handOver_clientId :
    (handOver partitionId previous successor m).clientId = m.clientId := by
  simp only [handOver]
  repeat' split
  all_goals rfl

@[simp] theorem handOver_session :
    (handOver partitionId previous successor m).session = m.session := by
  simp only [handOver]
  repeat' split
  all_goals rfl

@[simp] theorem handOver_holds : (handOver partitionId previous successor m).holds = m.holds := by
  funext o
  simp [holds]

theorem mem_partitions_handOver :
    id ∈ (handOver partitionId previous successor m).partitions ↔
      (id = partitionId ∧ m.holds successor = true) ∨
        (id ∈ m.partitions ∧ ¬(id = partitionId ∧ previous.any m.holds = true)) := by
  by_cases hprevious : previous.any m.holds = true <;> by_cases hsuccessor : m.holds successor = true
  all_goals
    simp only [holds] at hprevious hsuccessor
    simp [handOver, holds, hprevious, hsuccessor]

theorem mem_pendingRevocations_handOver :
    id ∈ (handOver partitionId previous successor m).pendingRevocations ↔
      id ∈ m.pendingRevocations ∧ ¬(id = partitionId ∧ previous.any m.holds = true) := by
  by_cases hprevious : previous.any m.holds = true <;> by_cases hsuccessor : m.holds successor = true
  all_goals
    simp only [holds] at hprevious hsuccessor
    simp [handOver, holds, hprevious, hsuccessor]

variable {g g' : ConsumerGroup} {installation : InstallConsumerGroupOwnerRequest} {partitionOp : Nat}

def installedRow (a : ConsumerGroupAssignment) (d : PendingOwnership) : ConsumerGroupAssignment :=
  { a with owner := if d.owner.isUnassigned then none else some d.owner, pending := none }

theorem completeRevocation_cases
    (h : g.completeRevocation partitionId installation partitionOp = some g') :
    installation.groupId = g.id ∧ partitionOp ≠ 0 ∧ ∃ a d, g.assignments.get? partitionId = some a ∧
      a.pending = some d ∧ a.incarnation = installation.incarnation ∧ d.owner = installation.owner ∧
      d.metadataOp = installation.metadataOp ∧
      g' = { g with generation := g.generation + 1
                    assignments := g.assignments.upsert partitionId fun _ => installedRow a d
                    members := g.members.map (handOver partitionId a.owner d.owner) } := by
  unfold completeRevocation at h
  split_ifs at h with hnamed
  obtain ⟨a, ha, h⟩ := bind_eq_some_iff.mp h
  obtain ⟨d, hd, h⟩ := bind_eq_some_iff.mp h
  split at h
  · exact nomatch h
  rename_i hexact
  simp only [ne_eq, not_or, not_not] at hnamed hexact
  obtain ⟨hincarnation, howner, hop⟩ := hexact
  exact ⟨hnamed.1, hnamed.2, a, d, ha, hd, hincarnation, howner, hop, (some.inj h).symm⟩

variable {A : SortedMap Nat ConsumerGroupAssignment} {a : ConsumerGroupAssignment}
  {d : PendingOwnership}

theorem any_holds_installedRow (hnamed : m.clientId ≠ 0) :
    (installedRow a d).owner.any m.holds = m.holds d.owner := by
  unfold installedRow
  cases hunassigned : d.owner.isUnassigned with
  | false => simp
  | true =>
    have hclient : d.owner.clientId = 0 := by
      simpa using (Bool.and_eq_true_iff.mp hunassigned).1
    have hne : (d.owner.clientId == m.clientId) = false := by
      simpa [hclient] using Ne.symm hnamed
    simp [holds, hne]

theorem follows_handOver (hfollows : m.Follows A) (hnamed : m.clientId ≠ 0)
    (ha : A.get? partitionId = some a) :
    (handOver partitionId a.owner d.owner m).Follows
      (A.upsert partitionId fun _ => installedRow a d) := by
  constructor
  · intro id
    rw [mem_partitions_handOver, get?_upsert, handOver_holds]
    by_cases hid : id = partitionId
    · subst hid
      have howned : id ∈ m.partitions ↔ a.owner.any m.holds = true := by
        rw [hfollows.partitions id]
        simp [ha]
      simp [howned, any_holds_installedRow hnamed]
    · simp [hid, hfollows.partitions id]
  · intro id
    rw [mem_pendingRevocations_handOver, get?_upsert, handOver_holds]
    by_cases hid : id = partitionId
    · subst hid
      have howned : id ∈ m.pendingRevocations → a.owner.any m.holds = true := by
        intro hmem
        obtain ⟨b, hb, hholds, -⟩ := (hfollows.pendingRevocations id).mp hmem
        rw [ha] at hb
        cases hb
        exact hholds
      simp only [true_and, if_true, some.injEq, exists_eq_left', installedRow,
        isSome_none, Bool.false_eq_true, and_false, iff_false, not_and, not_not]
      exact howned
    · simp [hid, hfollows.pendingRevocations id]

end ConsumerGroup

/-- An owner that a completion installed on an incarnation of a partition. -/
structure Installation where
  partitionId : Nat
  incarnation : Nat
  owner : ConsumerGroupOwner
  deriving DecidableEq

open ConsumerGroup

namespace GroupTopic

variable {t : GroupTopic} {partitionId partitionOp : Nat}
  {installation : InstallConsumerGroupOwnerRequest}

theorem wellFormed_complete (h : t.WellFormed) :
    (t.complete partitionId installation partitionOp).WellFormed := by
  unfold complete
  cases hcomplete : t.group.completeRevocation partitionId installation partitionOp with
  | none => exact h
  | some g' =>
    obtain ⟨-, -, a, d, ha, -, -, -, -, rfl⟩ := completeRevocation_cases hcomplete
    refine ⟨h.ids, h.members.of_same ?_, ?_, ?_⟩
    · intro k m hm
      simp only [IdSlab.get_map, map_eq_some_iff] at hm
      obtain ⟨m₀, hm₀, rfl⟩ := hm
      exact ⟨m₀, hm₀, handOver_clientId⟩
    · intro id b hb
      simp only [get?_upsert] at hb
      split at hb
      case isTrue hid => cases hb; exact hid ▸ h.rows partitionId a ha
      case isFalse => exact h.rows id b hb
    · intro k m hm
      simp only [IdSlab.get_map, map_eq_some_iff] at hm
      obtain ⟨m₀, hm₀, rfl⟩ := hm
      exact follows_handOver (h.follows k m₀ hm₀) (h.members.named k m₀ hm₀) ha

/-- The owner the operation installs, if it is a completion that takes effect. -/
def installed (t : GroupTopic) : GroupCommand → Option Installation
  | .complete partitionId installation partitionOp =>
    if (t.group.completeRevocation partitionId installation partitionOp).isSome ∧
        installation.owner.isUnassigned = false then
      some ⟨partitionId, installation.incarnation, installation.owner⟩
    else none
  | _ => none

/-- Every operation either only decides, or is a completion. -/
theorem apply_cases (h : t.WellFormed) (metadataOp now : Nat) (command : GroupCommand) :
    (t.Decides (t.apply metadataOp now command) metadataOp ∧ t.installed command = none) ∨
      ∃ partitionId installation partitionOp,
        command = .complete partitionId installation partitionOp := by
  cases command with
  | join request => exact .inl ⟨decides_join h request, rfl⟩
  | leave clientId => exact .inl ⟨decides_leave h clientId metadataOp now, rfl⟩
  | removeMembers clientIds => exact .inl ⟨decides_removeMembers h clientIds, rfl⟩
  | refreshSession clientId session => exact .inl ⟨decides_refreshSession h clientId session, rfl⟩
  | createPartitions offsets revision =>
    exact .inl ⟨decides_createPartitions h offsets revision, rfl⟩
  | deletePartitions count => exact .inl ⟨decides_deletePartitions h count, rfl⟩
  | complete partitionId installation partitionOp =>
    exact .inr ⟨partitionId, installation, partitionOp, rfl⟩

theorem WellFormed.apply (h : t.WellFormed) (metadataOp now : Nat) (command : GroupCommand) :
    (t.apply metadataOp now command).WellFormed := by
  obtain ⟨hdecides, -⟩ | ⟨_, _, _, rfl⟩ := apply_cases h metadataOp now command
  · exact hdecides.wellFormed
  · exact wellFormed_complete h

end GroupTopic

/-! ## Runs -/

structure GroupEvent where
  metadataOp : Nat
  now : Nat
  command : GroupCommand

namespace GroupTopic

def run (t : GroupTopic) (events : List GroupEvent) : GroupTopic :=
  events.foldl (fun t e => t.apply e.metadataOp e.now e.command) t

/-- The owners installed along a run, in order. -/
def installs (t : GroupTopic) : List GroupEvent → List Installation
  | [] => []
  | e :: rest =>
    (t.installed e.command).toList ++ (t.apply e.metadataOp e.now e.command).installs rest

def OwnerAt (t : GroupTopic) (partitionId incarnation : Nat) (o : ConsumerGroupOwner) : Prop :=
  ∃ a, t.group.assignments.get? partitionId = some a ∧ a.incarnation = incarnation ∧ a.owner = some o

def PendingAt (t : GroupTopic) (partitionId incarnation : Nat) (d : PendingOwnership) : Prop :=
  ∃ a, t.group.assignments.get? partitionId = some a ∧ a.incarnation = incarnation ∧
    a.pending = some d

/-- Every pending decision was taken at an op below `bound`, and after the owners in `log` that were
installed on its partition; these too were decided by then. -/
structure Ordered (t : GroupTopic) (log : List Installation) (bound : Nat) : Prop where
  decided : ∀ id a d, t.group.assignments.get? id = some a → a.pending = some d →
    d.owner.generation < bound
  younger : ∀ id a d, t.group.assignments.get? id = some a → a.pending = some d →
    ∀ i ∈ log, i.partitionId = id → i.owner.generation < d.owner.generation
  past : ∀ i ∈ log, i.owner.generation < bound
  increasing : ∀ id, (log.filter (·.partitionId = id)).Pairwise
    fun i j => i.owner.generation < j.owner.generation

variable {t : GroupTopic} {log : List Installation} {bound metadataOp now : Nat}

theorem Ordered.decides {t' : GroupTopic} (h : t.Ordered log bound)
    (hdecides : t.Decides t' metadataOp) (hop : bound ≤ metadataOp) : t'.Ordered log (metadataOp + 1) := by
  refine ⟨?_, ?_, fun i hi => Nat.lt_succ_of_lt ((h.past i hi).trans_le hop), h.increasing⟩
  · intro id a' d' ha' hd'
    obtain ⟨hgen, -⟩ | ⟨a, d, ha, hd, hown, -⟩ := (hdecides.redecided id a' ha').pending d' hd'
    · exact hgen ▸ Nat.lt_succ_self _
    · exact hown ▸ Nat.lt_succ_of_lt ((h.decided id a d ha hd).trans_le hop)
  · intro id a' d' ha' hd' i hi hid
    obtain ⟨hgen, -⟩ | ⟨a, d, ha, hd, hown, -⟩ := (hdecides.redecided id a' ha').pending d' hd'
    · exact hgen ▸ (h.past i hi).trans_le hop
    · exact hown ▸ h.younger id a d ha hd i hi hid

/-- It takes its decision away, other rows being as they were. -/
theorem Ordered.append {t' : GroupTopic} {new : Option Installation} (h : t.Ordered log bound)
    (hnew : ∀ i, new = some i → ∃ a d, t.group.assignments.get? i.partitionId = some a ∧
      a.pending = some d ∧ i.owner = d.owner)
    (hrows : ∀ id a d, t'.group.assignments.get? id = some a → a.pending = some d →
      t.group.assignments.get? id = some a ∧ ∀ i, new = some i → i.partitionId ≠ id)
    (hop : bound ≤ metadataOp) : t'.Ordered (log ++ new.toList) (metadataOp + 1) := by
  have hmem : ∀ i, i ∈ log ++ new.toList → i ∈ log ∨ new = some i := by
    intro i hi
    simpa [eq_comm] using hi
  constructor
  · intro id a d ha hd
    exact Nat.lt_succ_of_lt ((h.decided id a d (hrows id a d ha hd).1 hd).trans_le hop)
  · intro id a d ha hd i hi hid
    obtain ⟨ha, hother⟩ := hrows id a d ha hd
    obtain hi | hi := hmem i hi
    · exact h.younger id a d ha hd i hi hid
    · exact absurd hid (hother i hi)
  · intro i hi
    obtain hi | hi := hmem i hi
    · exact Nat.lt_succ_of_lt ((h.past i hi).trans_le hop)
    · obtain ⟨a, d, ha, hd, howner⟩ := hnew i hi
      exact howner ▸ Nat.lt_succ_of_lt ((h.decided _ a d ha hd).trans_le hop)
  · intro id
    rw [filter_append]
    refine pairwise_append.mpr ⟨h.increasing id, ?_, ?_⟩
    · cases new with
      | none => exact .nil
      | some i => exact (pairwise_singleton ..).filter _
    · -- the decision installed is younger than every owner installed before
      intro i hi j hj
      obtain ⟨hi, hid⟩ := mem_filter.mp hi
      obtain ⟨hj, hjd⟩ := mem_filter.mp hj
      obtain ⟨a, d, ha, hd, howner⟩ := hnew j (by simpa [eq_comm] using hj)
      rw [howner]
      refine h.younger _ a d ha hd i hi ?_
      rw [of_decide_eq_true hid, of_decide_eq_true hjd]

variable {partitionId partitionOp : Nat} {installation : InstallConsumerGroupOwnerRequest}

theorem installed_complete {i : Installation}
    (h : t.installed (.complete partitionId installation partitionOp) = some i) :
    i = ⟨partitionId, installation.incarnation, installation.owner⟩ ∧
      ∃ g', t.group.completeRevocation partitionId installation partitionOp = some g' := by
  simp only [installed, ite_none_right_eq_some, some.injEq] at h
  exact ⟨h.2.symm, isSome_iff_exists.mp h.1.1⟩

theorem Ordered.complete (h : t.Ordered log bound) (hop : bound ≤ metadataOp) :
    (t.complete partitionId installation partitionOp).Ordered
      (log ++ (t.installed (.complete partitionId installation partitionOp)).toList)
      (metadataOp + 1) := by
  refine h.append ?_ ?_ hop
  · intro i hi
    obtain ⟨rfl, g', hcomplete⟩ := installed_complete hi
    obtain ⟨-, -, a, d, ha, hd, -, howner, -⟩ := completeRevocation_cases hcomplete
    exact ⟨a, d, ha, hd, howner.symm⟩
  · intro id b e hb he
    unfold GroupTopic.complete at hb
    cases hcomplete : t.group.completeRevocation partitionId installation partitionOp with
    | none =>
      rw [hcomplete] at hb
      refine ⟨hb, fun i hi => ?_⟩
      obtain ⟨-, g', hsome⟩ := installed_complete hi
      rw [hcomplete] at hsome
      exact nomatch hsome
    | some g' =>
      rw [hcomplete] at hb
      obtain ⟨-, -, a, d, -, -, -, -, -, rfl⟩ := completeRevocation_cases hcomplete
      simp only [get?_upsert] at hb
      split at hb
      case isTrue => cases hb; exact nomatch he
      case isFalse hid =>
        refine ⟨hb, fun i hi => ?_⟩
        obtain ⟨rfl, -⟩ := installed_complete hi
        exact Ne.symm hid

/-- **One operation** keeps the order, with the owner it installs at the end of the log. -/
theorem Ordered.apply (hwf : t.WellFormed) (h : t.Ordered log bound) (e : GroupEvent)
    (hop : bound ≤ e.metadataOp) :
    (t.apply e.metadataOp e.now e.command).Ordered (log ++ (t.installed e.command).toList)
      (e.metadataOp + 1) := by
  obtain ⟨hdecides, hnone⟩ | ⟨partitionId, installation, partitionOp, hcommand⟩ :=
    apply_cases hwf e.metadataOp e.now e.command
  · rw [hnone, toList_none, append_nil]
    exact h.decides hdecides hop
  · rw [hcommand]
    exact h.complete hop

theorem wellFormed_new {partitions : List TopicPartition} (hids : PartitionIdsValid partitions)
    (resizePolicy : PartitionResizePolicy) (groupId : Nat) :
    (mk partitions resizePolicy (.new groupId)).WellFormed where
  ids := hids
  members := ⟨fun _ _ => nofun, fun _ _ _ _ => nofun⟩
  rows _ _ := nofun
  follows _ _ := nofun

theorem ordered_new (partitions : List TopicPartition) (resizePolicy : PartitionResizePolicy)
    (groupId : Nat) : (mk partitions resizePolicy (.new groupId)).Ordered [] 0 where
  decided _ _ _ := nofun
  younger _ _ _ := nofun
  past := nofun
  increasing _ := .nil

theorem WellFormed.run (h : t.WellFormed) (events : List GroupEvent) :
    (t.run events).WellFormed := by
  induction events generalizing t with
  | nil => exact h
  | cons e rest ih => exact ih (h.apply e.metadataOp e.now e.command)

section

variable (hwf : t.WellFormed)
include hwf

theorem Ordered.increasing_run (h : t.Ordered log bound) {events : List GroupEvent}
    (hfirst : ∀ e ∈ events, bound ≤ e.metadataOp)
    (hops : (events.map GroupEvent.metadataOp).Pairwise (· < ·)) (id : Nat) :
    ((log ++ t.installs events).filter (·.partitionId = id)).Pairwise
      fun i j => i.owner.generation < j.owner.generation := by
  induction events generalizing t log bound with
  | nil => rw [installs, append_nil]; exact h.increasing id
  | cons e rest ih =>
    obtain ⟨hnext, hrest⟩ := pairwise_cons.mp hops
    rw [installs, ← append_assoc]
    exact ih (hwf.apply ..) (h.apply hwf e (hfirst e mem_cons_self))
      (fun e' he' => hnext _ (mem_map_of_mem he')) hrest

theorem completed_of_ownerAt {metadataOp now : Nat} {command : GroupCommand} {incarnation : Nat}
    {o : ConsumerGroupOwner}
    (hafter : (t.apply metadataOp now command).OwnerAt partitionId incarnation o)
    (hbefore : ¬t.OwnerAt partitionId incarnation o) :
    ∃ d partitionOp, command = .complete partitionId
        ⟨incarnation, t.group.id, o, d.metadataOp⟩ partitionOp ∧ partitionOp ≠ 0 ∧
      t.PendingAt partitionId incarnation d ∧ d.owner = o ∧
      ⟨partitionId, incarnation⟩ ∈ t.partitions := by
  obtain ⟨b, hb, rfl, hbo⟩ := hafter
  obtain ⟨hdecides, -⟩ | ⟨id, installation, partitionOp, rfl⟩ := apply_cases hwf metadataOp now command
  · obtain ⟨a, ha, hincarnation, hao⟩ := (hdecides.redecided partitionId b hb).owner o hbo
    exact absurd ⟨a, ha, hincarnation, hao⟩ hbefore
  · simp only [apply, complete] at hb
    cases hcomplete : t.group.completeRevocation id installation partitionOp with
    | none =>
      rw [hcomplete] at hb
      exact absurd ⟨b, hb, rfl, hbo⟩ hbefore
    | some g' =>
      rw [hcomplete] at hb
      obtain ⟨hgroup, hop, a, d, ha, hd, hincarnation, howner, hmeta, rfl⟩ :=
        completeRevocation_cases hcomplete
      simp only [get?_upsert] at hb
      split at hb
      case isFalse => exact absurd ⟨b, hb, rfl, hbo⟩ hbefore
      case isTrue hid =>
        subst hid
        cases hb
        have hdo : d.owner = o := by
          simp only [installedRow] at hbo
          split_ifs at hbo
          exact some.inj hbo
        refine ⟨d, partitionOp, ?_, hop, ⟨a, ha, rfl, hd⟩, hdo, hwf.rows partitionId a ha⟩
        obtain ⟨inc, gid, own, mop⟩ := installation
        simp only at hgroup hincarnation howner hmeta
        subst hgroup hmeta howner hdo
        rw [← hincarnation]
        rfl

theorem complete_of_stale
    (hstale : partitionOp = 0 ∨ ⟨partitionId, installation.incarnation⟩ ∉ t.partitions ∨
      ∀ d, t.PendingAt partitionId installation.incarnation d →
        d.owner ≠ installation.owner ∨ d.metadataOp ≠ installation.metadataOp) :
    t.complete partitionId installation partitionOp = t := by
  unfold complete
  cases hcomplete : t.group.completeRevocation partitionId installation partitionOp with
  | none => rfl
  | some g' =>
    obtain ⟨-, hop, a, d, ha, hd, hincarnation, howner, hmeta, -⟩ :=
      completeRevocation_cases hcomplete
    obtain hzero | hother | hsuperseded := hstale
    · exact absurd hzero hop
    · exact absurd (hincarnation ▸ hwf.rows partitionId a ha) hother
    · obtain hne | hne := hsuperseded d ⟨a, ha, hincarnation, hd⟩
      · exact absurd howner hne
      · exact absurd hmeta hne

theorem WellFormed.polls_unique {k k' : Nat} {m m' : ConsumerGroupMember}
    (hm : t.group.members.get k = some m) (hm' : t.group.members.get k' = some m')
    (hpoll : m.isPollable partitionId = true) (hpoll' : m'.isPollable partitionId = true) :
    k = k' := by
  obtain ⟨a, ha, -, hholds⟩ := (hwf.follows k m hm).of_isPollable hpoll
  obtain ⟨a', ha', -, hholds'⟩ := (hwf.follows k' m' hm').of_isPollable hpoll'
  rw [ha] at ha'
  cases ha'
  obtain ⟨o, ho, hmo⟩ := (any_eq_true _ _).mp hholds
  obtain ⟨o', ho', hmo'⟩ := (any_eq_true _ _).mp hholds'
  rw [ho] at ho'
  cases ho'
  have hclient : o.clientId = m.clientId := by simpa using (Bool.and_eq_true_iff.mp hmo).1
  have hclient' : o.clientId = m'.clientId := by simpa using (Bool.and_eq_true_iff.mp hmo').1
  exact hwf.members.distinct k k' m m' hm hm' (hclient.symm.trans hclient')

end

end GroupTopic

/-- **Ownership fencing.** Along every run of a new group with strictly increasing metadata ops: an
owner appears on a partition only by a completion that names the pending decision of the
partition's incarnation; the owners installed on an incarnation have increasing generations; a
partition is polled by one member at most, and by none while its handoff is pending; and any other
completion changes nothing. -/
theorem ownership_fenced (partitions : List TopicPartition) (hids : PartitionIdsValid partitions)
    (resizePolicy : PartitionResizePolicy) (groupId : Nat) (events : List GroupEvent)
    (hops : (events.map GroupEvent.metadataOp).Pairwise (· < ·)) (t : GroupTopic)
    (hrun : (mk partitions resizePolicy (.new groupId)).run events = t) :
    (∀ metadataOp now command partitionId incarnation o,
      (t.apply metadataOp now command).OwnerAt partitionId incarnation o →
      ¬t.OwnerAt partitionId incarnation o →
      ∃ d partitionOp, command = .complete partitionId
          ⟨incarnation, t.group.id, o, d.metadataOp⟩ partitionOp ∧ partitionOp ≠ 0 ∧
        t.PendingAt partitionId incarnation d ∧ d.owner = o ∧
        ⟨partitionId, incarnation⟩ ∈ t.partitions) ∧
    (∀ partitionId incarnation,
      (((mk partitions resizePolicy (.new groupId)).installs events).filter fun i =>
          i.partitionId = partitionId ∧ i.incarnation = incarnation).Pairwise
        fun i j => i.owner.generation < j.owner.generation) ∧
    (∀ partitionId k k' m m', t.group.members.get k = some m → t.group.members.get k' = some m' →
      m.isPollable partitionId = true → m'.isPollable partitionId = true → k = k') ∧
    (∀ partitionId k m, t.group.members.get k = some m → m.isPollable partitionId = true →
      ∀ incarnation d, ¬t.PendingAt partitionId incarnation d) ∧
    (∀ metadataOp now partitionId installation partitionOp,
      (partitionOp = 0 ∨ ⟨partitionId, installation.incarnation⟩ ∉ t.partitions ∨
        ∀ d, t.PendingAt partitionId installation.incarnation d →
          d.owner ≠ installation.owner ∨ d.metadataOp ≠ installation.metadataOp) →
      t.apply metadataOp now (.complete partitionId installation partitionOp) = t) := by
  have hstart := wellFormed_new hids resizePolicy groupId
  have hwf : t.WellFormed := hrun ▸ hstart.run events
  refine ⟨?_, ?_, ?_, ?_, ?_⟩
  · intro metadataOp now command partitionId incarnation o hafter hbefore
    exact completed_of_ownerAt hwf hafter hbefore
  · intro partitionId incarnation
    have hincreasing := (ordered_new partitions resizePolicy groupId).increasing_run
      hstart (fun _ _ => Nat.zero_le _) hops partitionId
    rw [nil_append] at hincreasing
    refine hincreasing.sublist (monotone_filter_right _ fun i hi => ?_)
    exact decide_eq_true (of_decide_eq_true hi).1
  · intro partitionId k k' m m' hm hm' hpoll hpoll'
    exact hwf.polls_unique hm hm' hpoll hpoll'
  · rintro partitionId k m hm hpoll incarnation d ⟨b, hb, -, hd⟩
    obtain ⟨a, ha, hnone, -⟩ := (hwf.follows k m hm).of_isPollable hpoll
    rw [ha] at hb
    cases hb
    rw [hnone] at hd
    exact nomatch hd
  · intro metadataOp now partitionId installation partitionOp hstale
    exact complete_of_stale hwf hstale

/-- A topic with two partitions and a group without members. -/
def pairTopic : GroupTopic := ⟨[⟨0, 1⟩, ⟨1, 2⟩], .mutable, .new 5⟩

/-- Client 7 joins and gets both partitions. Client 8 joins, and partition 1 is handed over. -/
def handoff : List GroupEvent :=
  [⟨10, 100, .join ⟨7, 3, by decide⟩⟩, ⟨11, 200, .complete 0 ⟨1, 5, ⟨7, 3, 10⟩, 10⟩ 4⟩,
    ⟨12, 200, .complete 1 ⟨2, 5, ⟨7, 3, 10⟩, 10⟩ 4⟩, ⟨13, 300, .join ⟨8, 4, by decide⟩⟩,
    ⟨14, 400, .complete 1 ⟨2, 5, ⟨8, 4, 13⟩, 13⟩ 5⟩]

/-- Afterwards client 8 alone polls the partition, its owners' generations have grown, nothing is
pending on it, and the completion for client 7 comes too late. -/
theorem ownership_fenced_after_handoff :
    (∀ k m, (pairTopic.run handoff).group.members.get k = some m → m.isPollable 1 = true → k = 1) ∧
    ((pairTopic.installs handoff).filter fun i => i.partitionId = 1 ∧ i.incarnation = 2).Pairwise
      (fun i j => i.owner.generation < j.owner.generation) ∧
    (∀ incarnation d, ¬(pairTopic.run handoff).PendingAt 1 incarnation d) ∧
    (pairTopic.run handoff).apply 15 500 (.complete 1 ⟨2, 5, ⟨7, 3, 10⟩, 10⟩ 6) =
      pairTopic.run handoff := by
  obtain ⟨-, hgrow, hone, hquiet, hstale⟩ := ownership_fenced pairTopic.partitions
    ⟨by decide, by decide⟩ .mutable 5 handoff (by decide) (pairTopic.run handoff) rfl
  have hmember : (pairTopic.run handoff).group.members.get 1 = some ⟨1, 8, some 4, [1], []⟩ := by
    decide +kernel
  have hpending := hquiet 1 1 _ hmember (by decide)
  exact ⟨fun k m hm hpoll => hone 1 k 1 m _ hm hmember hpoll (by decide), hgrow 1 2, hpending,
    hstale 15 500 1 _ 6 (.inr (.inr fun d hd => absurd hd (hpending _ d)))⟩

end Iggy
