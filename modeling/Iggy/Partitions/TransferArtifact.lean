import Iggy.Partitions.OffsetsWire

/-!
# The artifact of a running partition

Source: iggy_partition.rs:10614-10640, 11048-11290; state_transfer.rs:3055-3120.

A partition commits one op after the other: each fixes the retry capacity, applies its effect on the
owners, the history fence, the retirement catalog, the offsets or the retired sessions, and leaves a
receipt. What `offsets_wire_snapshot` builds from it is an artifact that decodes to itself and that
`validate_owners` lets through (`transfer_artifact_exact`).

The checks of `validate_committed_entries` beside the capacity refuse more than this model does. The
live offset maps, the WAL and the journal, which make the snapshot fail or give it the prepare at
the committed op, are its arguments here.
-/

namespace Iggy

open List Lib SortedMap SliceTable DedupWatermark

/-- `DurableConsumerOffsets`: the committed offset of each id, by kind. -/
structure DurableOffsets where
  consumers : SortedMap Nat Nat
  groups : SortedMap Nat Nat
  externalGroups : SortedMap Nat Nat
  emptiedAt : Nat

inductive OffsetKind
  | consumer | consumerGroup | externalGroup
  deriving DecidableEq

namespace DurableOffsets

variable (o : DurableOffsets)

def get : OffsetKind → SortedMap Nat Nat
  | .consumer => o.consumers
  | .consumerGroup => o.groups
  | .externalGroup => o.externalGroups

variable (kind : OffsetKind)

def set (entries : SortedMap Nat Nat) : DurableOffsets :=
  match kind with
  | .consumer => { o with consumers := entries }
  | .consumerGroup => { o with groups := entries }
  | .externalGroup => { o with externalGroups := entries }

def count : Nat :=
  o.consumers.entries.length + o.groups.entries.length + o.externalGroups.entries.length

/-- A committed store: `offset` is what the effect leaves, the larger of the two for an
auto-commit. -/
def store (id offset : Nat) : DurableOffsets :=
  { o.set kind ((o.get kind).insert id offset) with emptiedAt := 0 }

/-- A committed delete. The delete of the last key marks the table emptied, unless a file that boot
could not load is stranded. -/
def delete (id op : Nat) (stranded : Bool) : DurableOffsets :=
  { o.set kind ((o.get kind).erase id) with
    emptiedAt := if o.emptiedAt = 0 ∧ ((o.get kind).get? id).isSome ∧ o.count = 1 ∧ ¬ stranded then op
      else o.emptiedAt }

end DurableOffsets

inductive CommittedEffect
  | messages
  | install (installation : InstallConsumerGroupOwnerRequest)
  | retire (catalog : RetireConsumerGroupOwnersRequest)
  | transition (transition : TransitionPartitionHistoryRequest)
  | store (kind : OffsetKind) (id offset : Nat)
  | delete (kind : OffsetKind) (id : Nat) (stranded : Bool)
  | retireSessions (identities : List SessionIdentity)

structure CommittedOp where
  op : Nat
  retryCapacity : Nat
  effect : CommittedEffect
  /-- None for an op of the server's own. -/
  receipt : Option PartitionCommit

/-- The part of a partition that a transfer carries beside its messages. -/
structure TransferState where
  fence : PartitionFence
  offsets : DurableOffsets
  dedup : SliceTable
  commitOp : Nat

namespace TransferState

def new (createdRevision maxClients : Nat) : TransferState :=
  ⟨.new createdRevision, ⟨.empty, .empty, .empty, 0⟩, .new maxClients, 0⟩

def fenceEvent (op : Nat) : CommittedEffect → Option OwnerFenceEvent
  | .install installation => some (.install installation op)
  | .retire catalog => some (.retire catalog)
  | .transition transition => some (.transition transition op)
  | _ => none

def applyOffsets (o : DurableOffsets) (op : Nat) : CommittedEffect → DurableOffsets
  | .store kind id offset => o.store kind id offset
  | .delete kind id stranded => o.delete kind id op stranded
  | _ => o

def retiredSessions : CommittedEffect → List SessionIdentity
  | .retireSessions identities => identities
  | _ => []

/-- One turn of the retirement loop of `publish_pending_commit`. -/
def retireSession (s : TransferState) (identity : SessionIdentity) : TransferState :=
  { s with
    dedup.table := (s.dedup.table.forgetSession identity.clientId identity.session).1
    fence.requiredMetadataFrontier :=
      max s.fence.requiredMetadataFrontier identity.metadataWatermark }

/-- One committed op. A capacity or an effect that is refused stops the partition where it is. -/
def commit (s : TransferState) (c : CommittedOp) : TransferState :=
  match s.dedup.commitCapacity c.retryCapacity with
  | .error _ => s
  | .ok dedup =>
    let applied := match fenceEvent c.op c.effect with
      | some event => s.fence.apply event
      | none => (s.fence, .ok ())
    match applied.2 with
    | .error _ => { s with dedup }
    | .ok () =>
      let retired := (retiredSessions c.effect).foldl retireSession
        { fence := applied.1, offsets := applyOffsets s.offsets c.op c.effect, dedup, commitOp := c.op }
      { retired with
        dedup := match c.receipt with
          | some receipt => retired.dedup.step (.reply receipt)
          | none => retired.dedup }

def offsetsWireSnapshot (s : TransferState) (nextOffset : Nat) (prepareChecksum : Option Nat)
    (checkpointPrepare : Bytes) : ConsumerOffsetsWire where
  requiredMetadataFrontier := s.fence.requiredMetadataFrontier
  dedupCapacity := if s.dedup.capacityCommitted then s.dedup.table.clientsMax else 0
  checkpointPrepare := checkpointPrepare
  prepareChecksum := prepareChecksum
  nextOffset := nextOffset
  emptiedAt := s.offsets.emptiedAt
  consumers := s.offsets.consumers.entries
  groups := s.offsets.groups.entries
  externalGroups := s.offsets.externalGroups.entries
  dedup := s.dedup.watermarksSorted
  owners := s.fence.consumerGroupOwners.entries.map Prod.snd
  historyTransition := s.fence.historyTransition
  ownerRetirement := s.fence.ownerRetirement

end TransferState

open ConsumerOffsetsWire

/-! ## Committed ops as the log holds them -/

/-- A fence event whose request passed its decoder, at a partition op. -/
def OwnerFenceEvent.Decoded (op : Nat) : OwnerFenceEvent → Prop
  | .install i partitionOp => partitionOp = op ∧ (i.owner.clientId = 0 ↔ i.owner.session = 0) ∧
      i.owner.generation ≠ 0 ∧ i.metadataOp ≠ 0 ∧ FieldsFit ownerWidths (ownerFields ⟨i, op⟩)
  | .retire catalog => ValidCatalog catalog.metadataOp catalog
  | .transition t partitionOp => partitionOp = op ∧ t.metadataOp ≠ 0 ∧
      FieldsFit historyWidths (historyFields ⟨t, op⟩)

/-- Numbers in range of their types, requests as their decoders let them through, and a reply whose
header gives its length. -/
structure CommittedOp.WellFormed (c : CommittedOp) : Prop where
  op : c.op ≠ 0 ∧ c.op < 256 ^ 8
  fence : ∀ e ∈ TransferState.fenceEvent c.op c.effect, e.Decoded c.op
  offset : ∀ kind id offset, c.effect = .store kind id offset → ValidPair (id, offset)
  watermark : ∀ identity ∈ TransferState.retiredSessions c.effect,
    identity.metadataWatermark < 256 ^ 8
  receipt : ∀ r ∈ c.receipt, r.reply.Sized ∧ r.session < 256 ^ 8 ∧ r.userId < 256 ^ 4

namespace TransferState

inductive Reachable (createdRevision maxClients : Nat) : TransferState → Prop
  | new : Reachable createdRevision maxClients (new createdRevision maxClients)
  | commit {s : TransferState} {c : CommittedOp} (hs : Reachable createdRevision maxClients s)
      (hc : c.WellFormed) (hop : s.commitOp < c.op) :
      Reachable createdRevision maxClients (s.commit c)

end TransferState

/-! ## The fence -/

theorem ConsumerOffsetsWire.ValidOwner.mono {f f' : Nat} {o : InstalledConsumerGroupOwner}
    (h : ValidOwner f o) (hle : f ≤ f') : ValidOwner f' o := by
  obtain ⟨⟨h1, h2, h3, h4, h5, h6⟩, hfits⟩ := h
  exact ⟨⟨h1, h2, h3, h4, h5, h6.trans hle⟩, hfits⟩

theorem ConsumerOffsetsWire.ValidCatalog.mono {f f' : Nat} {c : RetireConsumerGroupOwnersRequest}
    (h : ValidCatalog f c) (hle : f ≤ f') : ValidCatalog f' c :=
  ⟨h.fits, ⟨h.metadataOp.1, h.metadataOp.2.trans hle⟩, h.count, h.live⟩

namespace PartitionFence

/-- What is installed can be sent, and was installed at a committed op: an owner before the fence. -/
structure Sound (s : PartitionFence) (commitOp : Nat) : Prop where
  wellFormed : s.WellFormed
  frontier : s.requiredMetadataFrontier < 256 ^ 8
  count : s.consumerGroupOwners.entries.length ≤ consumerOffsetsEntriesMax
  row : ∀ groupId row, s.consumerGroupOwners.get? groupId = some row →
    row.installation.groupId = groupId ∧ row.partitionOp ≤ commitOp ∧
      (∀ h ∈ s.historyTransition, row.partitionOp < h.partitionOp) ∧
      ValidOwner s.requiredMetadataFrontier row
  history : ∀ h ∈ s.historyTransition, h.transition.incarnation = s.createdRevision ∧
    h.partitionOp ≤ commitOp ∧ HistoryChecks s.requiredMetadataFrontier h ∧
      FieldsFit historyWidths (historyFields h)
  catalog : ∀ c ∈ s.ownerRetirement, c.incarnation = s.createdRevision ∧
    ValidCatalog s.requiredMetadataFrontier c

theorem sound_new (createdRevision : Nat) : (new createdRevision).Sound 0 :=
  ⟨wellFormed_new createdRevision, Nat.pow_pos (by decide), Nat.zero_le _, nofun, nofun, nofun⟩

variable {s : PartitionFence}

theorem Sound.mono {op op' : Nat} (h : s.Sound op) (hle : op ≤ op') : s.Sound op' where
  wellFormed := h.wellFormed
  frontier := h.frontier
  count := h.count
  row groupId row hrow := by
    obtain ⟨hkey, hop, hfence, hvalid⟩ := h.row groupId row hrow
    exact ⟨hkey, hop.trans hle, hfence, hvalid⟩
  history x hx := by
    obtain ⟨hinc, hop, hchecks⟩ := h.history x hx
    exact ⟨hinc, hop.trans hle, hchecks⟩
  catalog := h.catalog

theorem Sound.raise {commitOp frontier : Nat} (h : s.Sound commitOp) (hfrontier : frontier < 256 ^ 8) :
    { s with requiredMetadataFrontier := max s.requiredMetadataFrontier frontier }.Sound commitOp where
  wellFormed :=
    { incarnation := h.wellFormed.incarnation
      unretired := h.wellFormed.unretired
      owner_le := fun id row hrow => (h.wellFormed.owner_le id row hrow).trans (le_max_left _ _)
      catalog_le := fun c hc => (h.wellFormed.catalog_le c hc).trans (le_max_left _ _)
      history_le := fun x hx => (h.wellFormed.history_le x hx).trans (le_max_left _ _) }
  frontier := max_lt h.frontier hfrontier
  count := h.count
  row groupId row hrow := by
    obtain ⟨hself, hop, hbefore, hvalid⟩ := h.row groupId row hrow
    exact ⟨hself, hop, hbefore, hvalid.mono (le_max_left _ _)⟩
  history x hx := by
    obtain ⟨hinc, hop, ⟨hzero, hle, hpartition⟩, hfits⟩ := h.history x hx
    exact ⟨hinc, hop, ⟨hzero, hle.trans (le_max_left _ _), hpartition⟩, hfits⟩
  catalog c hc := ⟨(h.catalog c hc).1, (h.catalog c hc).2.mono (le_max_left _ _)⟩

theorem Sound.change {s' : PartitionFence} {commitOp op : Nat} {e : OwnerFenceEvent}
    (h : s.Sound commitOp) (hop : commitOp < op) (hpos : op ≠ 0) (he : e.Decoded op)
    (hchange : Change s e s') : s'.Sound op := by
  have hs' := hchange.wellFormed h.wellFormed
  cases hchange with
  | @install i partitionOp hincarnation hlive hopen hgroup hroom hnewer =>
    obtain ⟨rfl, howner, hgeneration, hmetadata, hfits⟩ := he
    have hfrontier : i.metadataOp < 256 ^ 8 := by
      simp only [FieldsFit, ownerWidths, ownerFields, forall₂_cons] at hfits
      exact hfits.2.2.2.2.2.1
    have hraised := h.raise hfrontier
    refine ⟨hs', hraised.frontier, length_upsert_le _ _ h.count hroom, ?_,
      by simp [hopen], hraised.catalog⟩
    intro groupId row hrow
    rw [get?_upsert] at hrow
    split at hrow
    case isTrue hkey =>
      cases hrow
      exact ⟨hkey.symm, le_refl _, by simp [hopen],
        ⟨⟨howner, hgeneration, hmetadata, hpos, hgroup, le_max_right _ _⟩, hfits⟩⟩
    case isFalse =>
      obtain ⟨hself, hle, -, hvalid⟩ := hraised.row groupId row hrow
      exact ⟨hself, by omega, by simp [hopen], hvalid⟩
  | @retire catalog merged hincarnation hmerged hkeeps =>
    -- merging keeps all of a catalog but some of its live ids
    have hvalid : merged.incarnation = catalog.incarnation ∧ ValidCatalog merged.metadataOp merged := by
      obtain rfl | ⟨installed, rfl⟩ := hmerged
      · exact ⟨rfl, he⟩
      · exact ⟨rfl, he.fits, he.metadataOp, (length_filter_le _ _).trans he.count,
          fun x hx => he.live x (mem_of_mem_filter hx)⟩
    have hraised := (h.raise hvalid.2.fits.2.1).mono hop.le
    refine ⟨hs', hraised.frontier, (length_filter_le _ _).trans h.count, ?_, hraised.history,
      fun c hc => ?_⟩
    · intro groupId row hrow
      rw [get?_retain] at hrow
      split_ifs at hrow
      exact hraised.row groupId row hrow
    · cases hc
      exact ⟨hvalid.1.trans hincarnation, hvalid.2.mono (le_max_right _ _)⟩
  | @transition t partitionOp hincarnation hopen =>
    obtain ⟨rfl, hmetadata, hfits⟩ := he
    have hfrontier : t.metadataOp < 256 ^ 8 := by
      simp only [FieldsFit, historyWidths, historyFields, forall₂_cons] at hfits
      exact hfits.2.1
    have hraised := h.raise hfrontier
    refine ⟨hs', hraised.frontier, h.count, ?_, fun x hx => ?_, hraised.catalog⟩
    · intro groupId row hrow
      obtain ⟨hself, hle, -, hvalid⟩ := hraised.row groupId row hrow
      refine ⟨hself, by omega, fun x hx => ?_, hvalid⟩
      cases hx
      exact hle.trans_lt hop
    · cases hx
      exact ⟨hincarnation, le_refl _, ⟨hmetadata, le_max_right _ _, hpos⟩, hfits⟩

theorem Sound.validateOwners {commitOp : Nat} (h : s.Sound commitOp) {w : ConsumerOffsetsWire}
    (howners : w.owners = s.consumerGroupOwners.entries.map Prod.snd)
    (hhistory : w.historyTransition = s.historyTransition)
    (hcatalog : w.ownerRetirement = s.ownerRetirement) :
    w.validateOwners s.createdRevision commitOp = .ok () := by
  have hrow : ∀ o ∈ w.owners, o.partitionOp ≤ commitOp ∧
      o.installation.incarnation = s.createdRevision ∧
      (∀ x ∈ s.historyTransition, o.partitionOp < x.partitionOp) ∧
      ∀ c ∈ s.ownerRetirement, c.retires o.installation.groupId = false := by
    intro o ho
    rw [howners] at ho
    obtain ⟨⟨groupId, row⟩, hmem, rfl⟩ := mem_map.mp ho
    have hget := mem_entries.mp hmem
    obtain ⟨hself, hop, hbefore, -⟩ := h.row groupId row hget
    refine ⟨hop, h.wellFormed.incarnation groupId row hget, hbefore, fun c hc => ?_⟩
    rw [hself, Bool.eq_false_iff]
    intro hretires
    have hnone := h.wellFormed.unretired groupId (by rw [consumerGroupRetired, hc]; exact hretires)
    cases hget.symm.trans hnone
  unfold ConsumerOffsetsWire.validateOwners
  rw [hhistory, hcatalog, if_neg, if_neg, if_neg]
  · simp only [Option.any_eq_true, Bool.or_eq_true, decide_eq_true_eq, any_eq_true,
      Bool.and_eq_true, not_exists, not_and, not_or]
    refine fun c hc => ⟨fun hne => hne (h.catalog c hc).1, fun o ho hretires => ?_⟩
    rw [(hrow o ho).2.2.2 c hc] at hretires
    cases hretires
  · simp only [Option.any_eq_true, Bool.or_eq_true, decide_eq_true_eq, any_eq_true, not_exists,
      not_and, not_or]
    refine fun o ho => ⟨⟨not_lt.mpr (hrow o ho).1, fun hne => hne (hrow o ho).2.1⟩,
      fun x hx => not_le.mpr ((hrow o ho).2.2.1 x hx)⟩
  · simp only [Option.any_eq_true, Bool.or_eq_true, decide_eq_true_eq, not_exists, not_and, not_or]
    exact fun x hx => ⟨not_lt.mpr (h.history x hx).2.1, fun hne => hne (h.history x hx).1⟩

end PartitionFence

/-! ## The dedup slice -/

namespace SliceTable

/-- Entries that can be sent, of numbers in range, and none before a capacity was committed. -/
structure Sound (t : SliceTable) : Prop where
  ready : t.Ready
  range : ∀ client e, t.table.find client = some e → e.epoch < 256 ^ 8 ∧ e.userId < 256 ^ 4
  vacant : t.capacityCommitted = false → t.table.count = 0

theorem sound_new (maxClients : Nat) : (new maxClients).Sound :=
    ⟨ready_new maxClients, nofun, fun _ => rfl⟩

variable {t : SliceTable}

theorem Sound.commitCapacity {t' : SliceTable} {capacity : Nat} (h : t.Sound)
    (hcommit : t.commitCapacity capacity = .ok t') : t'.Sound ∧ t'.capacityCommitted = true := by
  have hstep : t.step (.capacity capacity) = t' := by simp only [step, hcommit]
  have hready : t'.Ready := hstep ▸ h.ready.step (show (Call.capacity capacity).WellFormed from trivial)
  unfold SliceTable.commitCapacity at hcommit
  split_ifs at hcommit
  cases hcommit
  exact ⟨⟨hready, h.range, fun h => Bool.noConfusion h⟩, rfl⟩

theorem Sound.forgetSession (h : t.Sound) (clientId session : Nat) :
    { t with table := (t.table.forgetSession clientId session).1 }.Sound := by
  unfold ClientTable.forgetSession
  split
  · exact h
  split_ifs
  · exact h
  have hfind : ∀ client e, ((t.table.slots.erase clientId).get client) = some e →
      t.table.find client = some e := by
    intro client e hget
    rw [Slots.get_erase] at hget
    split_ifs at hget
    exact hget
  have hcount : (t.table.slots.erase clientId).entries.length ≤ t.table.count :=
    Slots.length_entries_erase_le
  refine ⟨⟨fun client e hget => h.ready.entries client e (hfind client e hget), fun hcommitted => ?_⟩,
    fun client e hget => h.range client e (hfind client e hget), fun hvacant => ?_⟩
  · obtain ⟨hzero, hmax, hroom⟩ := h.ready.capacity hcommitted
    exact ⟨hzero, hmax, hcount.trans hroom⟩
  · exact Nat.le_zero.mp (hcount.trans (h.vacant hvacant).le)

theorem Sound.reply (h : t.Sound) (hcommitted : t.capacityCommitted = true) {c : PartitionCommit}
    (hwell : c.reply.Sized) (hsession : c.session < 256 ^ 8) (huser : c.userId < 256 ^ 4) :
    (t.step (.reply c)).Sound := by
  have hready := h.ready.step (show (Call.reply c).WellFormed from hwell)
  refine ⟨hready, fun client e hfind => ?_, fun hfalse => absurd (hcommitted.symm.trans hfalse) (by decide)⟩
  have hfind' : (t.table.commitCall c).1.find client = some e := hfind
  rw [(commitCall_eq t.table c).1 client] at hfind'
  split at hfind'
  · unfold settled at hfind'
    split at hfind'
    · split at hfind'
      case h_1 old hold =>
        split at hfind'
        · obtain rfl := Option.some.inj hfind'
          exact h.range client old hold
        · cases hfind'
          obtain ⟨huserId, hepoch, -⟩ :=
            (old.foldRequest c.reply.request c.reply.commit).retainReceipt_frame c.session c.reply
          rw [ClientTable.receiptEntry, hepoch, huserId, ClientEntry.userId_foldRequest]
          exact ⟨hsession, (h.range client old hold).2⟩
      · split at hfind' <;> cases hfind'
        · obtain ⟨huserId, hepoch, -⟩ := ClientEntry.retainReceipt_frame
            (.watermarkOnly c.reply.client c.userId c.reply.request 1#128 c.reply.commit) c.session
            c.reply
          rw [ClientTable.firstReceipt, hepoch, huserId]
          exact ⟨hsession, huser⟩
    · exact h.range client e hfind'
  · exact h.range client e hfind'

theorem Sound.run (h : t.Sound)
    (hceiling : ∀ w ∈ t.watermarksSorted, w.reply.length ≤ partitionReceiptBytesMax) :
    Run client consumerOffsetsEntriesMax ValidDedup t.watermarksSorted ∧
      t.watermarksSorted.length ≤ (if t.capacityCommitted then t.table.clientsMax else 0) ∧
      (if t.capacityCommitted then t.table.clientsMax else 0) ≤ clientsTableSlotMax := by
  have hperm := perm_insertionSort (fun a b : DedupWatermark => a.client ≤ b.client)
    (t.table.slots.entries.map watermarkOf)
  have hlen : t.watermarksSorted.length = t.table.count := by
    rw [watermarksSorted, hperm.length_eq, length_map]
    rfl
  have hcount : t.watermarksSorted.length ≤ (if t.capacityCommitted then t.table.clientsMax else 0) ∧
      (if t.capacityCommitted then t.table.clientsMax else 0) ≤ clientsTableSlotMax := by
    rw [hlen]
    cases hcommitted : t.capacityCommitted with
    | false => exact ⟨(h.vacant hcommitted).le, Nat.zero_le _⟩
    | true => exact ⟨(h.ready.capacity hcommitted).2.2, (h.ready.capacity hcommitted).2.1⟩
  refine ⟨⟨hcount.1.trans (hcount.2.trans (by decide)), fun w hw => ?_, ?_⟩, hcount⟩
  · obtain ⟨e, he, rfl⟩ := mem_map.mp (hperm.mem_iff.mp hw)
    have hfind : t.table.find e.clientId = some e := Slots.get_eq_some.mpr ⟨he, rfl⟩
    have hsend := h.ready.entries e.clientId e hfind
    obtain ⟨hepoch, huser⟩ := h.range e.clientId e hfind
    obtain ⟨reply, hring, hwell, hclient, hrequest, hcommit, -⟩ := hsend.ring
    obtain ⟨hbytes, hclientFits, hcommitFits, hrequestFits⟩ := hwell.ranges
    rw [hclient] at hclientFits
    rw [hrequest] at hrequestFits
    rw [hcommit] at hcommitFits
    have hreply : (watermarkOf e).reply = reply.bytesOf := by simp [watermarkOf, hring]
    have hlength := CachedReply.length_bytesOf hwell.toWellFormed
    refine ⟨?_, hsend.clientId, ?_, hceiling _ hw⟩
    · rw [dedupFields, hreply, hlength]
      exact .cons hclientFits (.cons hrequestFits (.cons hcommitFits (.cons huser
        (.cons e.committedWindow.isLt (.cons hepoch (.cons hbytes .nil))))))
    · rw [hreply, hlength]
      exact Nat.le_add_right headerSize _
  · -- sorted by the sort, strictly since a client has one entry
    have hsorted : (t.watermarksSorted.map client).Pairwise (· ≤ ·) :=
      pairwise_map.mpr (pairwise_insertionSort _ _)
    have hnodup : (t.watermarksSorted.map client).Nodup := by
      refine (hperm.map client).nodup_iff.mpr ?_
      rw [map_map]
      exact t.table.slots.unique
    exact (hsorted.and hnodup).imp fun h => lt_of_le_of_ne h.1 h.2

end SliceTable

/-! ## Whole runs -/

structure DurableOffsets.Sound (o : DurableOffsets) : Prop where
  valid : ∀ kind id offset, (o.get kind).get? id = some offset → ValidPair (id, offset)
  emptiedAt : o.emptiedAt < 256 ^ 8

theorem DurableOffsets.sound_new : (⟨.empty, .empty, .empty, 0⟩ : DurableOffsets).Sound :=
  ⟨fun kind _ _ h => (by cases kind <;> exact nomatch h), Nat.pow_pos (by decide)⟩

theorem DurableOffsets.get_set (o : DurableOffsets) (kind kind' : OffsetKind)
    (entries : SortedMap Nat Nat) :
    (o.set kind entries).get kind' = if kind' = kind then entries else o.get kind' := by
  cases kind <;> cases kind' <;> rfl

theorem DurableOffsets.Sound.apply {o : DurableOffsets} (h : o.Sound) {c : CommittedOp}
    (hc : c.WellFormed) : (TransferState.applyOffsets o c.op c.effect).Sound := by
  cases heffect : c.effect with
  | messages => exact h
  | install => exact h
  | retire => exact h
  | transition => exact h
  | retireSessions => exact h
  | store kind id offset =>
    refine ⟨fun kind' id' offset' hget => ?_, Nat.pow_pos (by decide)⟩
    have hget : ((o.set kind ((o.get kind).insert id offset)).get kind').get? id' = some offset' := by
      cases kind' <;> exact hget
    rw [get_set] at hget
    split at hget
    · rw [get?_insert] at hget
      split at hget
      case isTrue hid =>
        cases hget
        exact hid ▸ hc.offset kind id offset heffect
      case isFalse => exact h.valid kind id' offset' hget
    · exact h.valid kind' id' offset' hget
  | delete kind id stranded =>
    refine ⟨fun kind' id' offset' hget => ?_, ?_⟩
    · have hget : ((o.set kind ((o.get kind).erase id)).get kind').get? id' = some offset' := by
        cases kind' <;> exact hget
      rw [get_set] at hget
      split at hget
      · rw [get?_erase] at hget
        split_ifs at hget
        exact h.valid kind id' offset' hget
      · exact h.valid kind' id' offset' hget
    · change (if _ then _ else _) < 256 ^ 8
      split
      · exact hc.op.2
      · exact h.emptiedAt

theorem DurableOffsets.Sound.run {o : DurableOffsets} (h : o.Sound) (kind : OffsetKind)
    (hceiling : (o.get kind).entries.length ≤ consumerOffsetsEntriesMax) :
    Run Prod.fst consumerOffsetsEntriesMax ValidPair (o.get kind).entries :=
  ⟨hceiling, fun e he => h.valid kind e.1 e.2 (mem_entries.mp he),
    pairwise_map.mpr (o.get kind).sorted⟩

namespace TransferState

structure Sound (s : TransferState) : Prop where
  fence : s.fence.Sound s.commitOp
  offsets : s.offsets.Sound
  dedup : s.dedup.Sound

theorem Sound.retireSessions {s : TransferState} (h : s.Sound) {identities : List SessionIdentity}
    (hfits : ∀ identity ∈ identities, identity.metadataWatermark < 256 ^ 8) :
    (identities.foldl retireSession s).Sound ∧
      (identities.foldl retireSession s).dedup.capacityCommitted = s.dedup.capacityCommitted ∧
      (identities.foldl retireSession s).fence.createdRevision = s.fence.createdRevision := by
  induction identities generalizing s with
  | nil => exact ⟨h, rfl, rfl⟩
  | cons identity identities ih =>
    obtain ⟨hfirst, hrest⟩ := forall_mem_cons.mp hfits
    exact ih ⟨h.fence.raise hfirst, h.offsets, h.dedup.forgetSession ..⟩ hrest

/-- **A step.** -/
theorem Sound.commit {s : TransferState} (h : s.Sound) {c : CommittedOp} (hc : c.WellFormed)
    (hop : s.commitOp < c.op) :
    (s.commit c).Sound ∧ (s.commit c).fence.createdRevision = s.fence.createdRevision := by
  unfold TransferState.commit
  cases hcapacity : s.dedup.commitCapacity c.retryCapacity with
  | error => exact ⟨h, rfl⟩
  | ok dedup =>
    obtain ⟨hdedup, hcommitted⟩ := h.dedup.commitCapacity hcapacity
    dsimp only
    split
    · exact ⟨⟨h.fence, h.offsets, hdedup⟩, rfl⟩
    · generalize hfence : (match fenceEvent c.op c.effect with
        | some event => s.fence.apply event
        | none => (s.fence, .ok ())).1 = fence
      have happlied : fence.Sound c.op ∧ fence.createdRevision = s.fence.createdRevision := by
        subst hfence
        cases hevent : fenceEvent c.op c.effect with
        | none => exact ⟨h.fence.mono hop.le, rfl⟩
        | some e =>
          obtain hsame | ⟨-, hchange⟩ := PartitionFence.applied s.fence e
          · exact ⟨hsame.symm ▸ h.fence.mono hop.le, congrArg PartitionFence.createdRevision hsame⟩
          · refine ⟨h.fence.change hop hc.op.1 (hc.fence e hevent) hchange, ?_⟩
            generalize (s.fence.apply e).1 = s' at hchange
            cases hchange <;> rfl
      obtain ⟨hretired, hkept, hrevision⟩ := Sound.retireSessions
        (s := ⟨fence, applyOffsets s.offsets c.op c.effect, dedup, c.op⟩)
        ⟨happlied.1.mono le_rfl, h.offsets.apply hc, hdedup⟩ hc.watermark
      refine ⟨⟨hretired.fence, hretired.offsets, ?_⟩, hrevision.trans happlied.2⟩
      cases hreceipt : c.receipt with
      | none => exact hretired.dedup
      | some r =>
        obtain ⟨hwell, hsession, huser⟩ := hc.receipt r hreceipt
        exact hretired.dedup.reply (hkept.trans hcommitted) hwell hsession huser

/-- **A run.** -/
theorem Reachable.sound {createdRevision maxClients : Nat} {s : TransferState}
    (h : Reachable createdRevision maxClients s) :
    s.Sound ∧ s.fence.createdRevision = createdRevision := by
  induction h with
  | new =>
    exact ⟨⟨PartitionFence.sound_new _, DurableOffsets.sound_new, sound_new _⟩, rfl⟩
  | commit _ hc hop ih =>
    obtain ⟨hsound, hrevision⟩ := ih.1.commit hc hop
    exact ⟨hsound, hrevision.trans ih.2⟩

structure Ceilings (w : ConsumerOffsetsWire) : Prop where
  consumers : w.consumers.length ≤ consumerOffsetsEntriesMax
  groups : w.groups.length ≤ consumerOffsetsEntriesMax
  externalGroups : w.externalGroups.length ≤ consumerOffsetsEntriesMax
  receipts : ∀ d ∈ w.dedup, d.reply.length ≤ partitionReceiptBytesMax
  prepare : w.checkpointPrepare.length ≤ prepareBytesMax

/-- **The transfer artifact is exact and canonical.** What a partition sends decodes to itself and
its owners pass for the partition's incarnation and commit op; and bytes that decode are the bytes
the decoded artifact is encoded to. -/
theorem transfer_artifact_exact (checksum : Bytes → UInt64) :
    (∀ (createdRevision maxClients : Nat) (s : TransferState) (nextOffset : UInt64)
        (prepareChecksum : Option (BitVec 128)) (checkpointPrepare : Bytes),
      Reachable createdRevision maxClients s →
      Ceilings (s.offsetsWireSnapshot nextOffset.toNat (prepareChecksum.map (·.toNat))
        checkpointPrepare) →
      let w := s.offsetsWireSnapshot nextOffset.toNat (prepareChecksum.map (·.toNat)) checkpointPrepare
      decode checksum (w.encode checksum) = .ok w ∧
        w.validateOwners createdRevision s.commitOp = .ok ()) ∧
    ∀ bytes w, decode checksum bytes = .ok w → w.encode checksum = bytes := by
  refine ⟨?_, fun bytes w h => (decode_eq_ok.mp h).2.symm⟩
  intro createdRevision maxClients s nextOffset prepareChecksum checkpointPrepare hs hceilings
  obtain ⟨hsound, rfl⟩ := hs.sound
  obtain ⟨hdedup, hcapacity⟩ := hsound.dedup.run hceilings.receipts
  refine ⟨decode_eq_ok.mpr ⟨?_, rfl⟩, hsound.fence.validateOwners rfl rfl rfl⟩
  refine ⟨⟨nextOffset.toNat_lt, hsound.offsets.emptiedAt, hsound.fence.frontier⟩, hcapacity,
    hsound.offsets.run .consumer hceilings.consumers, hsound.offsets.run .consumerGroup hceilings.groups,
    hsound.offsets.run .externalGroup hceilings.externalGroups, hdedup, ?_,
    fun x hx => (hsound.fence.history x hx).2.2, fun c hc => (hsound.fence.catalog c hc).2, ?_,
    hceilings.prepare⟩
  · have hkeys : ∀ e ∈ s.fence.consumerGroupOwners.entries, e.2.installation.groupId = e.1 :=
      fun e he => (hsound.fence.row e.1 e.2 (mem_entries.mp he)).1
    refine ⟨(length_map _).trans_le hsound.fence.count, fun o ho => ?_, ?_⟩
    · obtain ⟨e, he, rfl⟩ := mem_map.mp ho
      exact (hsound.fence.row e.1 e.2 (mem_entries.mp he)).2.2.2
    · have hmap : (s.fence.consumerGroupOwners.entries.map Prod.snd).map
          (fun o => o.installation.groupId) = s.fence.consumerGroupOwners.entries.map Prod.fst := by
        rw [map_map]
        exact map_congr_left hkeys
      exact hmap ▸ pairwise_map.mpr s.fence.consumerGroupOwners.sorted
  · intro c hc
    obtain ⟨x, -, rfl⟩ := Option.map_eq_some_iff.mp hc
    exact x.isLt

/-- An owner, offsets of each kind, a session that is retired and one that is not, a catalog of the
live groups and a deleted history. -/
def busyOps : List CommittedOp :=
  [⟨1, 2, .install ⟨7, 3, ⟨5, 1, 4⟩, 6⟩, none⟩,
    ⟨2, 2, .store .consumer 1 10, some ⟨1, 3, receiptOf 5 2 []⟩⟩,
    ⟨3, 2, .store .consumerGroup 3 11, none⟩,
    ⟨4, 2, .retireSessions [⟨9, 3, 8⟩], none⟩,
    ⟨5, 2, .store .externalGroup 2 12, some ⟨1, 4, receiptOf 6 5 []⟩⟩,
    ⟨6, 2, .retire ⟨7, 9, 4, [3], by simp⟩, none⟩,
    ⟨7, 2, .transition ⟨7, 10⟩, none⟩]

theorem wellFormed_busyOps : Forall CommittedOp.WellFormed busyOps := by
  have hnone : ∀ r ∈ (none : Option PartitionCommit),
      r.reply.Sized ∧ r.session < 256 ^ 8 ∧ r.userId < 256 ^ 4 := by simp
  refine ⟨⟨by decide, ?_, by simp, by simp [retiredSessions], hnone⟩,
    ⟨by decide, by simp [fenceEvent], ?_, by simp [retiredSessions], ?_⟩,
    ⟨by decide, by simp [fenceEvent], ?_, by simp [retiredSessions], hnone⟩,
    ⟨by decide, by simp [fenceEvent], by simp, by decide, hnone⟩,
    ⟨by decide, by simp [fenceEvent], ?_, by simp [retiredSessions], ?_⟩,
    ⟨by decide, ?_, by simp, by simp [retiredSessions], hnone⟩,
    ⟨by decide, ?_, by simp, by simp [retiredSessions], hnone⟩⟩
  · rintro e ⟨⟩
    exact ⟨rfl, by decide, by decide, by decide, by decide⟩
  · rintro kind id offset ⟨⟩
    exact .cons (by decide) (.cons (by decide) .nil)
  · rintro r ⟨⟩
    exact ⟨sized_receiptOf (by decide) (by decide), by decide, by decide⟩
  · rintro kind id offset ⟨⟩
    exact .cons (by decide) (.cons (by decide) .nil)
  · rintro kind id offset ⟨⟩
    exact .cons (by decide) (.cons (by decide) .nil)
  · rintro r ⟨⟩
    exact ⟨sized_receiptOf (by decide) (by decide), by decide, by decide⟩
  · rintro e ⟨⟩
    exact ⟨by decide, by decide, by decide, by decide⟩
  · rintro e ⟨⟩
    exact ⟨rfl, by decide, by decide⟩

theorem transfer_artifact_of_busyOps :
    let s := busyOps.foldl commit (new 7 2)
    let w := s.offsetsWireSnapshot 0 none []
    w.owners = [⟨⟨7, 3, ⟨5, 1, 4⟩, 6⟩, 1⟩] ∧ w.consumers = [(1, 10)] ∧ w.groups = [(3, 11)] ∧
      w.externalGroups = [(2, 12)] ∧ w.dedup.map (·.session) = [4] ∧
      w.historyTransition = some ⟨⟨7, 10⟩, 7⟩ ∧ w.requiredMetadataFrontier = 10 ∧
      decode (fun _ => 0) (w.encode fun _ => 0) = .ok w ∧ w.validateOwners 7 7 = .ok () := by
  obtain ⟨h1, h2, h3, h4, h5, h6, h7⟩ := wellFormed_busyOps
  have hreach : Reachable 7 2 (busyOps.foldl commit (new 7 2)) := by
    simp only [busyOps, foldl_cons, foldl_nil]
    refine .commit (.commit (.commit (.commit (.commit (.commit (.commit .new h1 ?_) h2 ?_) h3 ?_) h4 ?_)
      h5 ?_) h6 ?_) h7 ?_ <;> decide +kernel
  obtain ⟨hdecode, howners⟩ := (transfer_artifact_exact fun _ => 0).1 7 2 _ 0 none [] hreach
    ⟨by decide +kernel, by decide +kernel, by decide +kernel, by decide +kernel, Nat.zero_le _⟩
  exact ⟨by decide +kernel, by decide +kernel, by decide +kernel, by decide +kernel,
    by decide +kernel, by decide +kernel, by decide +kernel, hdecode, howners⟩

end TransferState

end Iggy
