import Iggy.Consensus.PartitionTransfer
import Iggy.Lib.ExactReader
import Iggy.Partitions.OwnerFence

/-!
# The consumer-offsets artifact of a state transfer

Source: partitions/src/state_transfer.rs:363-778; retire_consumer_group_owners.rs:68-122;
install_consumer_group_owner.rs:51-88.

The bytes in which a partition sends its offsets, its dedup slice, the installed owners, the history
fence and the retirement catalog. Every part is read by a reader that is exact for what writes it,
so the decoder accepts the valid artifacts in their one encoding and nothing else (`decode_eq_ok`).
-/

namespace Iggy

open List Lib Reader

/-- `PREPARE_BYTES_MAX`, the largest prepare the partition WAL takes. -/
def prepareBytesMax : Nat := 64 * 1024 * 1024

structure ConsumerOffsetsWire where
  dedupCapacity : Nat
  requiredMetadataFrontier : Nat
  prepareChecksum : Option Nat
  checkpointPrepare : Bytes
  nextOffset : Nat
  emptiedAt : Nat
  consumers : List (Nat × Nat)
  groups : List (Nat × Nat)
  externalGroups : List (Nat × Nat)
  dedup : List DedupWatermark
  owners : List InstalledConsumerGroupOwner
  historyTransition : Option InstalledPartitionHistory
  ownerRetirement : Option RetireConsumerGroupOwnersRequest

/-- `ConsumerOffsetsWireError`, those that decoding and `validate_owners` raise. -/
inductive ConsumerOffsetsWireError
  | invalidOwnership | invalidCapacity | invalidReceipt | invalidPrepareChecksum | truncated
  | badMagic
  | unsupportedVersion (version : Nat)
  | trailingBytes (extra : Nat)
  | checksumMismatch (expected actual : Nat)
  | tooManyEntries (part : String) (count max : Nat)
  | nonAscendingId (part : String) (id : Nat)
  | nonAscendingClient (client : Nat)
  | reservedClient
  deriving DecidableEq

namespace ConsumerOffsetsWire

/-- `CONSUMER_OFFSETS_MAGIC`, `*b"ICO1"`. -/
def consumerOffsetsMagic : Bytes := [0x49, 0x43, 0x4f, 0x31]

def consumerOffsetsVersion : Nat := 8

def partitionReceiptBytesMax : Nat := headerSize + 4 + 20

def consumerGroupOwnersMax : Nat := 2 ^ 20

abbrev WireReader := Reader ConsumerOffsetsWireError

/-! ## Offset sections -/

def pairWidths : List Nat := [4, 8]

def pairFields (e : Nat × Nat) : List Nat := [e.1, e.2]

def pairOfFields : List Nat → Except ConsumerOffsetsWireError (Nat × Nat)
  | [id, offset] => .ok (id, offset)
  | _ => .error .truncated

def writePair (e : Nat × Nat) : Bytes := packFields pairWidths (pairFields e)

/-- `decode_section`. -/
def readSection (part : String) (count : Nat) : WireReader (List (Nat × Nat)) :=
  readCounted Prod.fst (fun e => .nonAscendingId part e.1)
    (parse (takeFields .truncated pairWidths) pairOfFields) consumerOffsetsEntriesMax
    pairWidths.sum (.tooManyEntries part count consumerOffsetsEntriesMax) .truncated count

/-! ## The dedup section -/

/-- The fixed part of an entry: `DEDUP_ENTRY_LEN` bytes. -/
def dedupWidths : List Nat := [16, 8, 8, 4, 16, 8, 4]

def dedupFields (w : DedupWatermark) : List Nat :=
  [w.client, w.watermark, w.latestCommit, w.userId, w.committedWindow.toNat, w.session,
    w.reply.length]

def writeDedup (w : DedupWatermark) : Bytes := packFields dedupWidths (dedupFields w) ++ w.reply

def readDedupEntry : WireReader DedupWatermark := fun bs => do
  match ← takeFields .truncated dedupWidths bs with
  | ([client, watermark, latestCommit, userId, committedWindow, session, replyLength], bs) =>
    require (headerSize ≤ replyLength ∧ replyLength ≤ partitionReceiptBytesMax) .invalidReceipt
    let (reply, bs) ← takeBytes .truncated replyLength bs
    require (client ≠ 0) .reservedClient
    return (⟨client, userId, watermark, latestCommit, BitVec.ofNat 128 committedWindow, session, reply⟩,
      bs)
  | _ => .error .truncated

/-- `decode_dedup_section`. -/
def readDedup (count : Nat) : WireReader (List DedupWatermark) :=
  readCounted DedupWatermark.client (fun w => .nonAscendingClient w.client) readDedupEntry
    consumerOffsetsEntriesMax dedupWidths.sum
    (.tooManyEntries "dedup" count consumerOffsetsEntriesMax) .truncated count

/-! ## Owners -/

/-- `InstallConsumerGroupOwnerRequest` and the partition op. -/
def ownerWidths : List Nat := [8, 8, 16, 8, 8, 8, 8]

def ownerFields (o : InstalledConsumerGroupOwner) : List Nat :=
  [o.installation.incarnation, o.installation.groupId, o.installation.owner.clientId,
    o.installation.owner.session, o.installation.owner.generation, o.installation.metadataOp,
    o.partitionOp]

def writeOwner (o : InstalledConsumerGroupOwner) : Bytes := packFields ownerWidths (ownerFields o)

variable (metadataFrontier : Nat)

/-- What the decoders of the owner, of the installation and of the section ask of one row. -/
def OwnerChecks (o : InstalledConsumerGroupOwner) : Prop :=
  (o.installation.owner.clientId = 0 ↔ o.installation.owner.session = 0) ∧
    o.installation.owner.generation ≠ 0 ∧ o.installation.metadataOp ≠ 0 ∧ o.partitionOp ≠ 0 ∧
    o.installation.groupId < 2 ^ 32 ∧ o.installation.metadataOp ≤ metadataFrontier

instance (metadataFrontier : Nat) (o : InstalledConsumerGroupOwner) :
    Decidable (OwnerChecks metadataFrontier o) :=
  inferInstanceAs (Decidable (_ ∧ _))

def ownerOfFields : List Nat → Except ConsumerOffsetsWireError InstalledConsumerGroupOwner
  | [incarnation, groupId, clientId, session, generation, metadataOp, partitionOp] =>
    let o : InstalledConsumerGroupOwner :=
      ⟨⟨incarnation, groupId, ⟨clientId, session, generation⟩, metadataOp⟩, partitionOp⟩
    if OwnerChecks metadataFrontier o then .ok o else .error .invalidOwnership
  | _ => .error .truncated

/-- `decode_ownership_section`. -/
def readOwners : WireReader (List InstalledConsumerGroupOwner) := fun bs => do
  let (count, bs) ← takeNat .truncated 4 bs
  readCounted (·.installation.groupId) (fun _ => .invalidOwnership)
    (parse (takeFields .truncated ownerWidths) (ownerOfFields metadataFrontier))
    consumerOffsetsEntriesMax ownerWidths.sum
    (.tooManyEntries "owners" count consumerOffsetsEntriesMax) .truncated count bs

/-! ## The history fence -/

def historyWidths : List Nat := [8, 8, 8]

def historyFields (h : InstalledPartitionHistory) : List Nat :=
  [h.transition.incarnation, h.transition.metadataOp, h.partitionOp]

def HistoryChecks (h : InstalledPartitionHistory) : Prop :=
  h.transition.metadataOp ≠ 0 ∧ h.transition.metadataOp ≤ metadataFrontier ∧ h.partitionOp ≠ 0

def writeHistory : Option InstalledPartitionHistory → Bytes
  | none => leBytes 1 0
  | some h => leBytes 1 1 ++ packFields historyWidths (historyFields h)

def readHistory : WireReader (Option InstalledPartitionHistory) := fun bs => do
  match ← takeNat .truncated 1 bs with
  | (0, bs) => return (none, bs)
  | (1, bs) => do
    let (incarnation, bs) ← takeNat .truncated 8 bs
    let (metadataOp, bs) ← takeNat .truncated 8 bs
    require (metadataOp ≠ 0) .invalidOwnership
    let (partitionOp, bs) ← takeNat .truncated 8 bs
    require (metadataOp ≤ metadataFrontier ∧ partitionOp ≠ 0) .invalidOwnership
    return (some ⟨⟨incarnation, metadataOp⟩, partitionOp⟩, bs)
  | _ => .error .invalidOwnership

/-! ## The retirement catalog -/

def catalogWidths : List Nat := [8, 8, 8, 4]

/-- `RetireConsumerGroupOwnersRequest::to_bytes`. -/
def writeCatalog (c : RetireConsumerGroupOwnersRequest) : Bytes :=
  packFields catalogWidths [c.incarnation, c.metadataOp, c.nextGroupId, c.liveGroupIds.length] ++
    c.liveGroupIds.flatMap (leBytes 8)

/-- `RetireConsumerGroupOwnersRequest::decode`; every error of it is answered with one. -/
def readCatalog : WireReader RetireConsumerGroupOwnersRequest := fun bs => do
  match ← takeFields .invalidOwnership catalogWidths bs with
  | ([incarnation, metadataOp, nextGroupId, count], bs) =>
    require (metadataOp ≠ 0) .invalidOwnership
    let (liveGroupIds, bs) ← readCounted id (fun _ => .invalidOwnership)
      (parse (takeNat .invalidOwnership 8) fun groupId =>
        if groupId < nextGroupId then .ok groupId else .error .invalidOwnership)
      consumerGroupOwnersMax 8 .invalidOwnership .invalidOwnership count bs
    if ordered : liveGroupIds.Pairwise (· < ·) then
      return (⟨incarnation, metadataOp, nextGroupId, liveGroupIds, ordered⟩, bs)
    else .error .invalidOwnership
  | _ => .error .invalidOwnership

/-- The length and the bytes; no bytes without a catalog. -/
def writeRetirement (catalog : Option RetireConsumerGroupOwnersRequest) : Bytes :=
  let bytes := (catalog.map writeCatalog).getD []
  leBytes 4 bytes.length ++ bytes

/-- `decode_retirement_section`. -/
def readRetirement : WireReader (Option RetireConsumerGroupOwnersRequest) :=
  fun bs => do
    let (length, bs) ← takeNat .truncated 4 bs
    if length = 0 then return (none, bs)
    else
      let (bytes, bs) ← takeBytes .truncated length bs
      let (catalog, extra) ← readCatalog bytes
      require (extra = []) .invalidOwnership
      require (catalog.metadataOp ≤ metadataFrontier) .invalidOwnership
      return (some catalog, bs)

/-! ## The prepare at the committed op -/

def writeChecksum (checksum : Option Nat) : Bytes :=
  packFields [1, 16] [if checksum.isSome then 1 else 0, checksum.getD 0]

def checksumOfFields : List Nat → Except ConsumerOffsetsWireError (Option Nat)
  | [0, 0] => .ok none
  | [1, checksum] => .ok (some checksum)
  | _ => .error .invalidPrepareChecksum

def writePrepare (prepare : Bytes) : Bytes := leBytes 4 prepare.length ++ prepare

def readPrepare : WireReader Bytes := fun bs => do
  let (length, bs) ← takeNat .truncated 4 bs
  require (length ≤ prepareBytesMax) .invalidPrepareChecksum
  takeBytes .truncated length bs

/-! ## The artifact -/

def headWidths : List Nat := [8, 8, 8, 4, 4, 4, 4, 4]

def headFields (w : ConsumerOffsetsWire) : List Nat :=
  [w.nextOffset, w.emptiedAt, w.requiredMetadataFrontier, w.dedupCapacity, w.consumers.length,
    w.groups.length, w.externalGroups.length, w.dedup.length]

def content (w : ConsumerOffsetsWire) : Bytes :=
  consumerOffsetsMagic ++ (leBytes 1 consumerOffsetsVersion ++ (packFields headWidths w.headFields ++
    (w.consumers.flatMap writePair ++ (w.groups.flatMap writePair ++
    (w.externalGroups.flatMap writePair ++ (w.dedup.flatMap writeDedup ++
    (leBytes 4 w.owners.length ++ (w.owners.flatMap writeOwner ++ (writeHistory w.historyTransition ++
    (writeRetirement w.ownerRetirement ++ (writeChecksum w.prepareChecksum ++
    writePrepare w.checkpointPrepare)))))))))))

variable (checksum : Bytes → UInt64)

def encode (w : ConsumerOffsetsWire) : Bytes :=
  w.content ++ leBytes 8 (checksum w.content).toNat

def readContent : WireReader ConsumerOffsetsWire := fun bs => do
  let (magic, bs) ← takeBytes .truncated consumerOffsetsMagic.length bs
  let (version, bs) ← takeNat .truncated 1 bs
  require (magic = consumerOffsetsMagic) .badMagic
  require (version = consumerOffsetsVersion) (.unsupportedVersion version)
  match ← takeFields .truncated headWidths bs with
  | ([nextOffset, emptiedAt, requiredMetadataFrontier, dedupCapacity, consumerCount, groupCount,
      externalGroupCount, dedupCount], bs) =>
    require (dedupCapacity ≤ clientsTableSlotMax) .invalidCapacity
    require (dedupCount ≤ dedupCapacity) (.tooManyEntries "dedup" dedupCount dedupCapacity)
    let (consumers, bs) ← readSection "consumers" consumerCount bs
    let (groups, bs) ← readSection "groups" groupCount bs
    let (externalGroups, bs) ← readSection "external groups" externalGroupCount bs
    let (dedup, bs) ← readDedup dedupCount bs
    let (owners, bs) ← readOwners requiredMetadataFrontier bs
    let (historyTransition, bs) ← readHistory requiredMetadataFrontier bs
    let (ownerRetirement, bs) ← readRetirement requiredMetadataFrontier bs
    let (prepareChecksum, bs) ← parse (takeFields .truncated [1, 16]) checksumOfFields bs
    let (checkpointPrepare, bs) ← readPrepare bs
    return ({ dedupCapacity, requiredMetadataFrontier, prepareChecksum, checkpointPrepare, nextOffset,
              emptiedAt, consumers, groups, externalGroups, dedup, owners, historyTransition,
              ownerRetirement }, bs)
  | _ => .error .truncated

def splitVerifiedTrailer (bytes : Bytes) : Except ConsumerOffsetsWireError Bytes :=
  if bytes.length < 8 then .error .truncated
  else
    let content := bytes.take (bytes.length - 8)
    let expected := leNat (bytes.drop (bytes.length - 8))
    if expected = (checksum content).toNat then .ok content
    else .error (.checksumMismatch expected (checksum content).toNat)

def decode (bytes : Bytes) : Except ConsumerOffsetsWireError ConsumerOffsetsWire := do
  let content ← splitVerifiedTrailer checksum bytes
  let (w, extra) ← readContent content
  require (extra = []) (.trailingBytes extra.length)
  return w

def validateOwners (w : ConsumerOffsetsWire) (incarnation throughOp : Nat) :
    Except ConsumerOffsetsWireError Unit :=
  if w.historyTransition.any fun h =>
      throughOp < h.partitionOp || h.transition.incarnation ≠ incarnation then
    .error .invalidOwnership
  else if w.owners.any fun o => throughOp < o.partitionOp ||
      o.installation.incarnation ≠ incarnation ||
      w.historyTransition.any fun h => h.partitionOp ≤ o.partitionOp then
    .error .invalidOwnership
  else if w.ownerRetirement.any fun catalog => catalog.incarnation ≠ incarnation ||
      w.owners.any fun o =>
        catalog.retires o.installation.groupId && !o.installation.owner.isUnassigned then
    .error .invalidOwnership
  else .ok ()

/-! ## What the readers accept -/

def ValidPair (e : Nat × Nat) : Prop := FieldsFit pairWidths (pairFields e)

theorem exact_readSection (part : String) (count : Nat) :
    Exact (readSection part count) (·.flatMap writePair) fun es =>
      es.length = count ∧ Run Prod.fst consumerOffsetsEntriesMax ValidPair es := by
  have hpair : Exact (parse (takeFields .truncated pairWidths) pairOfFields) writePair
      ValidPair := by
    refine ((exact_takeFields ConsumerOffsetsWireError.truncated pairWidths).parse pairFields
      (fun _ => True) fun ns e => ?_).congr (fun _ => and_iff_right trivial) fun _ => rfl
    constructor
    · intro h
      unfold pairOfFields at h
      split at h
      · cases h
        exact ⟨trivial, rfl⟩
      · exact nomatch h
    · rintro ⟨-, rfl⟩
      rfl
  exact hpair.readCounted _ _ _ _ _ _ fun e he => (length_packFields he).ge

structure ValidDedup (w : DedupWatermark) : Prop where
  fits : FieldsFit dedupWidths (dedupFields w)
  client : w.client ≠ 0
  reply : headerSize ≤ w.reply.length ∧ w.reply.length ≤ partitionReceiptBytesMax

theorem exact_readDedupEntry : Exact readDedupEntry writeDedup ValidDedup := by
  intro bs w rest
  simp only [readDedupEntry, bind_eq_ok, Prod.exists, exact_takeFields _ _ _ _ _]
  constructor
  · rintro ⟨ns, bs, ⟨hfits, rfl⟩, h⟩
    split at h
    case h_2 => exact nomatch h
    rename_i client watermark latestCommit userId window session length bs' heq
    cases heq
    simp only [bind_eq_ok, Prod.exists, exact_takeBytes _ _ _ _ _, require_eq_ok] at h
    obtain ⟨-, hreply, reply, bs, ⟨rfl, rfl⟩, -, hclient, h⟩ := h
    cases h
    have hwindow : window < 2 ^ 128 := by
      simp only [FieldsFit, dedupWidths, forall₂_cons] at hfits
      exact hfits.2.2.2.2.1
    have hfields : [client, watermark, latestCommit, userId, window, session, reply.length] =
        dedupFields ⟨client, userId, watermark, latestCommit, BitVec.ofNat 128 window, session,
          reply⟩ := by
      simp only [dedupFields, BitVec.toNat_ofNat, Nat.mod_eq_of_lt hwindow]
    rw [hfields] at hfits ⊢
    exact ⟨⟨hfits, hclient, hreply⟩, by rw [writeDedup, append_assoc]; rfl⟩
  · rintro ⟨⟨hfits, hclient, hreply⟩, rfl⟩
    refine ⟨dedupFields w, w.reply ++ rest, ⟨hfits, by rw [writeDedup, append_assoc]⟩, ?_⟩
    simp [dedupFields, require, hclient, hreply, takeBytes_append, ok_bind]

theorem exact_readDedup (count : Nat) :
    Exact (readDedup count) (·.flatMap writeDedup) fun ws =>
      ws.length = count ∧ Run DedupWatermark.client consumerOffsetsEntriesMax ValidDedup ws := by
  refine exact_readDedupEntry.readCounted _ _ _ _ _ _ fun w hw => ?_
  rw [writeDedup, length_append, length_packFields hw.fits]
  exact Nat.le_add_right _ _

structure ValidOwner (metadataFrontier : Nat) (o : InstalledConsumerGroupOwner) : Prop where
  checks : OwnerChecks metadataFrontier o
  fits : FieldsFit ownerWidths (ownerFields o)

abbrev OwnerRun (metadataFrontier : Nat) : List InstalledConsumerGroupOwner → Prop :=
  Run (·.installation.groupId) consumerOffsetsEntriesMax (ValidOwner metadataFrontier)

theorem exact_readOwners :
    Exact (readOwners metadataFrontier) (fun os => leBytes 4 os.length ++ os.flatMap writeOwner)
      (OwnerRun metadataFrontier) := by
  have howner : Exact
      (parse (takeFields .truncated ownerWidths) (ownerOfFields metadataFrontier)) writeOwner
      (ValidOwner metadataFrontier) := by
    refine ((exact_takeFields ConsumerOffsetsWireError.truncated ownerWidths).parse ownerFields
      (OwnerChecks metadataFrontier) fun ns o => ?_).congr
        (fun o => ⟨fun h => ⟨h.1, h.2⟩, fun h => ⟨h.1, h.2⟩⟩) fun _ => rfl
    constructor
    · intro h
      unfold ownerOfFields at h
      split at h
      · dsimp only at h
        split_ifs at h with hchecks
        cases h
        exact ⟨hchecks, rfl⟩
      · exact nomatch h
    · rintro ⟨hchecks, rfl⟩
      exact if_pos hchecks
  intro bs os rest
  have hrows := fun n tooMany short => howner.readCounted (·.installation.groupId)
    (fun _ => .invalidOwnership) consumerOffsetsEntriesMax tooMany short n fun o ho =>
      (length_packFields ho.fits).ge
  simp only [readOwners, bind_eq_ok, Prod.exists, exact_takeNat _ _ _ _ _]
  constructor
  · rintro ⟨n, bs, ⟨-, rfl⟩, h⟩
    obtain ⟨⟨rfl, hrun⟩, rfl⟩ := (hrows _ _ _ _ _ _).mp h
    exact ⟨hrun, by rw [append_assoc]⟩
  · rintro ⟨hrun, rfl⟩
    refine ⟨os.length, os.flatMap writeOwner ++ rest, ⟨?_, by rw [append_assoc]⟩, ?_⟩
    · exact hrun.count.trans_lt (by decide)
    · exact (hrows _ _ _ _ _ _).mpr ⟨⟨rfl, hrun⟩, rfl⟩

/-- What is written for an optional part, where its presence is a byte. -/
def ValidHistory (history : Option InstalledPartitionHistory) : Prop :=
  ∀ h ∈ history, HistoryChecks metadataFrontier h ∧ FieldsFit historyWidths (historyFields h)

theorem exact_readHistory :
    Exact (readHistory metadataFrontier) writeHistory (ValidHistory metadataFrontier) := by
  intro bs history rest
  simp only [readHistory, bind_eq_ok, Prod.exists, exact_takeNat _ _ _ _ _]
  constructor
  · rintro ⟨flag, bs, ⟨-, rfl⟩, h⟩
    split at h
    case h_1 heq =>
      cases heq
      cases h
      exact ⟨fun _ h => absurd h (Option.not_mem_none _), rfl⟩
    case h_2 heq =>
      cases heq
      simp only [bind_eq_ok, Prod.exists, exact_takeNat _ _ _ _ _, require_eq_ok] at h
      obtain ⟨incarnation, bs, ⟨hincarnation, rfl⟩, metadataOp, bs, ⟨hmetadata, rfl⟩, -, hzero,
        partitionOp, bs, ⟨hpartition, rfl⟩, -, hchecks, h⟩ := h
      cases h
      refine ⟨fun x hx => ?_, by simp [writeHistory, historyWidths, historyFields, packFields]⟩
      cases hx
      exact ⟨⟨hzero, hchecks⟩, .cons hincarnation (.cons hmetadata (.cons hpartition .nil))⟩
    case h_3 => cases h
  · rintro ⟨hvalid, rfl⟩
    cases history with
    | none => exact ⟨0, rest, ⟨by decide, rfl⟩, rfl⟩
    | some fence =>
      obtain ⟨⟨hzero, hchecks⟩, hfits⟩ := hvalid fence rfl
      refine ⟨1, packFields historyWidths (historyFields fence) ++ rest,
        ⟨by decide, by rw [writeHistory, append_assoc]⟩, ?_⟩
      simp only [bind_eq_ok, Prod.exists, exact_takeNat _ _ _ _ _, require_eq_ok]
      simp only [FieldsFit, historyWidths, historyFields, forall₂_cons] at hfits
      obtain ⟨hincarnation, hmetadata, hpartition, -⟩ := hfits
      exact ⟨_, _, ⟨hincarnation, by simp [historyWidths, historyFields, packFields]⟩, _, _,
        ⟨hmetadata, rfl⟩, (), hzero, _, _, ⟨hpartition, rfl⟩, (), hchecks, rfl⟩

structure ValidCatalog (metadataFrontier : Nat) (c : RetireConsumerGroupOwnersRequest) : Prop where
  fits : c.incarnation < 256 ^ 8 ∧ c.metadataOp < 256 ^ 8 ∧ c.nextGroupId < 256 ^ 8
  metadataOp : c.metadataOp ≠ 0 ∧ c.metadataOp ≤ metadataFrontier
  count : c.liveGroupIds.length ≤ consumerGroupOwnersMax
  live : ∀ groupId ∈ c.liveGroupIds, groupId < c.nextGroupId

theorem exact_readCatalog :
    ∀ bs c rest, (readCatalog bs = .ok (c, rest) ∧ c.metadataOp ≤ metadataFrontier) ↔
      ValidCatalog metadataFrontier c ∧ bs = writeCatalog c ++ rest := by
  have hids : ∀ next n, Exact (readCounted id (fun _ => .invalidOwnership)
      (parse (takeNat .invalidOwnership 8) fun groupId =>
        if groupId < next then .ok groupId else .error .invalidOwnership)
      consumerGroupOwnersMax 8 ConsumerOffsetsWireError.invalidOwnership .invalidOwnership n)
      (·.flatMap (leBytes 8)) fun ids =>
        ids.length = n ∧ Run id consumerGroupOwnersMax (fun x => x < next ∧ x < 256 ^ 8) ids := by
    intro next n
    refine Exact.readCounted ((exact_takeNat _ 8).parse id (· < next) fun x y => ?_) _ _ _ _ _ _
      fun x _ => (length_leBytes 8 x).ge
    split <;> simp <;> grind
  intro bs c rest
  simp only [readCatalog, bind_eq_ok, Prod.exists, exact_takeFields _ _ _ _ _]
  constructor
  · rintro ⟨⟨ns, bs, ⟨hfits, rfl⟩, h⟩, hfrontier⟩
    split at h
    case h_2 => cases h
    rename_i incarnation metadataOp next n bs' heq
    cases heq
    simp only [bind_eq_ok, Prod.exists, hids _ _ _ _ _, require_eq_ok] at h
    obtain ⟨-, hop, ids, bs, ⟨⟨rfl, hrun⟩, rfl⟩, h⟩ := h
    split_ifs at h
    cases h
    simp only [FieldsFit, catalogWidths, forall₂_cons] at hfits
    refine ⟨⟨⟨hfits.1, hfits.2.1, hfits.2.2.1⟩, ⟨hop, hfrontier⟩, hrun.count,
      fun x hx => (hrun.valid x hx).1⟩, ?_⟩
    rw [writeCatalog, append_assoc]
  · rintro ⟨hvalid, rfl⟩
    have hcount : c.liveGroupIds.length < 256 ^ 4 := hvalid.count.trans_lt (by decide)
    obtain ⟨hinc, hop, hnext⟩ := hvalid.fits
    refine ⟨⟨[c.incarnation, c.metadataOp, c.nextGroupId, c.liveGroupIds.length],
      c.liveGroupIds.flatMap (leBytes 8) ++ rest, ⟨?_, by rw [writeCatalog, append_assoc]⟩, ?_⟩,
      hvalid.metadataOp.2⟩
    · exact .cons hinc (.cons hop (.cons hnext (.cons hcount .nil)))
    · simp only [bind_eq_ok, Prod.exists, hids _ _ _ _ _, require_eq_ok]
      refine ⟨(), hvalid.metadataOp.1, c.liveGroupIds, rest, ⟨⟨rfl, hvalid.count, fun x hx => ?_, ?_⟩,
        rfl⟩, dif_pos c.ordered⟩
      · exact ⟨hvalid.live x hx, (hvalid.live x hx).trans hnext⟩
      · rw [map_id]
        exact c.ordered

theorem exact_readRetirement :
    Exact (readRetirement metadataFrontier) writeRetirement fun catalog =>
      ∀ c ∈ catalog, ValidCatalog metadataFrontier c := by
  have hwidth : ∀ c : RetireConsumerGroupOwnersRequest, ValidCatalog metadataFrontier c →
      (writeCatalog c).length ≠ 0 ∧ (writeCatalog c).length < 256 ^ 4 := by
    intro c hc
    have hcount := hc.count
    have hids := length_flatMap_const 8 (leBytes 8) c.liveGroupIds fun x _ => length_leBytes 8 x
    simp only [writeCatalog, packFields, catalogWidths, length_append, length_leBytes, hids,
      length_nil]
    unfold consumerGroupOwnersMax at hcount
    omega
  intro bs catalog rest
  simp only [readRetirement, bind_eq_ok, Prod.exists, exact_takeNat _ _ _ _ _]
  constructor
  · rintro ⟨length, bs, ⟨-, rfl⟩, h⟩
    split at h
    case isTrue hzero =>
      cases h
      exact ⟨fun _ h => absurd h (Option.not_mem_none _), by simp [writeRetirement, hzero]⟩
    case isFalse =>
      simp only [bind_eq_ok, Prod.exists, exact_takeBytes _ _ _ _ _, require_eq_ok] at h
      obtain ⟨bytes, bs, ⟨rfl, rfl⟩, c, extra, hread, -, rfl, -, hfrontier, h⟩ := h
      cases h
      obtain ⟨hvalid, rfl⟩ := (exact_readCatalog metadataFrontier _ _ _).mp ⟨hread, hfrontier⟩
      refine ⟨fun x hx => ?_, by simp [writeRetirement]⟩
      cases hx
      exact hvalid
  · rintro ⟨hvalid, rfl⟩
    cases catalog with
    | none => exact ⟨0, rest, ⟨by decide, rfl⟩, rfl⟩
    | some c =>
      have hc := hvalid c rfl
      refine ⟨(writeCatalog c).length, writeCatalog c ++ rest, ⟨(hwidth c hc).2, by simp [writeRetirement]⟩,
        ?_⟩
      have hread := (exact_readCatalog metadataFrontier _ c []).mpr ⟨hc, (append_nil _).symm⟩
      rw [if_neg (hwidth c hc).1]
      simp only [bind_eq_ok, Prod.exists, exact_takeBytes _ _ _ _ _, require_eq_ok]
      exact ⟨writeCatalog c, rest, ⟨rfl, rfl⟩, c, [], hread.1, (), rfl, (), hread.2, rfl⟩

theorem exact_readChecksum :
    Exact (parse (takeFields .truncated [1, 16]) checksumOfFields) writeChecksum fun checksum =>
      ∀ c ∈ checksum, c < 256 ^ 16 := by
  refine ((exact_takeFields ConsumerOffsetsWireError.truncated [1, 16]).parse
    (fun checksum => [if checksum.isSome then 1 else 0, checksum.getD 0]) (fun _ => True)
    fun ns checksum => ?_).congr (fun checksum => ?_) fun _ => rfl
  · constructor
    · intro h
      unfold checksumOfFields at h
      split at h
      · cases h
        exact ⟨trivial, rfl⟩
      · cases h
        exact ⟨trivial, rfl⟩
      · exact nomatch h
    · rintro ⟨-, rfl⟩
      cases checksum <;> rfl
  · cases checksum <;> simp [FieldsFit]

theorem exact_readPrepare : Exact readPrepare writePrepare fun p => p.length ≤ prepareBytesMax := by
  intro bs p rest
  simp only [readPrepare, bind_eq_ok, Prod.exists, exact_takeNat _ _ _ _ _,
    exact_takeBytes _ _ _ _ _, require_eq_ok]
  constructor
  · rintro ⟨n, bs, ⟨-, rfl⟩, -, hn, rfl, rfl⟩
    exact ⟨hn, by rw [writePrepare, append_assoc]; rfl⟩
  · rintro ⟨hn, rfl⟩
    refine ⟨p.length, p ++ rest, ⟨hn.trans_lt (by decide), ?_⟩, (), hn, rfl, rfl⟩
    rw [writePrepare, append_assoc]

structure Valid (w : ConsumerOffsetsWire) : Prop where
  numbers : w.nextOffset < 256 ^ 8 ∧ w.emptiedAt < 256 ^ 8 ∧ w.requiredMetadataFrontier < 256 ^ 8
  capacity : w.dedup.length ≤ w.dedupCapacity ∧ w.dedupCapacity ≤ clientsTableSlotMax
  consumers : Run Prod.fst consumerOffsetsEntriesMax ValidPair w.consumers
  groups : Run Prod.fst consumerOffsetsEntriesMax ValidPair w.groups
  externalGroups : Run Prod.fst consumerOffsetsEntriesMax ValidPair w.externalGroups
  dedup : Run DedupWatermark.client consumerOffsetsEntriesMax ValidDedup w.dedup
  owners : OwnerRun w.requiredMetadataFrontier w.owners
  history : ValidHistory w.requiredMetadataFrontier w.historyTransition
  retirement : ∀ c ∈ w.ownerRetirement, ValidCatalog w.requiredMetadataFrontier c
  checksum : ∀ c ∈ w.prepareChecksum, c < 256 ^ 16
  prepare : w.checkpointPrepare.length ≤ prepareBytesMax

theorem Valid.headFits {w : ConsumerOffsetsWire} (h : w.Valid) :
    FieldsFit headWidths w.headFields := by
  have hwide : ∀ {n : Nat}, n ≤ consumerOffsetsEntriesMax → n < 256 ^ 4 := fun hn =>
    hn.trans_lt (by decide)
  exact .cons h.numbers.1 (.cons h.numbers.2.1 (.cons h.numbers.2.2
    (.cons (Nat.lt_of_le_of_lt h.capacity.2 (by decide)) (.cons (hwide h.consumers.count)
    (.cons (hwide h.groups.count) (.cons (hwide h.externalGroups.count)
    (.cons (hwide h.dedup.count) .nil)))))))

theorem exact_readContent : Exact readContent content Valid := by
  intro bs w rest
  simp only [readContent, bind_eq_ok, Prod.exists, exact_takeBytes _ _ _ _ _, exact_takeNat _ _ _ _ _,
    exact_takeFields _ _ _ _ _, require_eq_ok]
  constructor
  · rintro ⟨magic, bs, ⟨-, rfl⟩, version, bs, ⟨-, rfl⟩, -, rfl, -, rfl, ns, bs, ⟨hfits, rfl⟩, h⟩
    split at h
    case h_2 => cases h
    rename_i heq
    cases heq
    simp only [bind_eq_ok, Prod.exists, require_eq_ok, exact_readSection _ _ _ _ _,
      exact_readDedup _ _ _ _, exact_readOwners _ _ _ _, exact_readHistory _ _ _ _,
      exact_readRetirement _ _ _ _, exact_readChecksum _ _ _, exact_readPrepare _ _ _] at h
    obtain ⟨-, hmax, -, hdedup, consumers, bs, ⟨⟨rfl, hconsumers⟩, rfl⟩, groups, bs,
      ⟨⟨rfl, hgroups⟩, rfl⟩, external, bs, ⟨⟨rfl, hexternal⟩, rfl⟩, dedup, bs,
      ⟨⟨rfl, hentries⟩, rfl⟩, owners, bs, ⟨howners, rfl⟩, history, bs, ⟨hhistory, rfl⟩, catalog, bs,
      ⟨hcatalog, rfl⟩, checksum, bs, ⟨hchecksum, rfl⟩, prepare, bs, ⟨hprepare, rfl⟩, h⟩ := h
    cases h
    simp only [FieldsFit, headWidths, forall₂_cons] at hfits
    refine ⟨⟨⟨hfits.1, hfits.2.1, hfits.2.2.1⟩, ⟨hdedup, hmax⟩, hconsumers, hgroups, hexternal,
      hentries, howners, hhistory, hcatalog, hchecksum, hprepare⟩, ?_⟩
    simp only [content, headFields, append_assoc, id]
  · rintro ⟨hw, rfl⟩
    simp only [content, append_assoc]
    refine ⟨consumerOffsetsMagic, _, ⟨rfl, rfl⟩, consumerOffsetsVersion, _, ⟨by decide, rfl⟩, (), rfl, (), rfl, w.headFields, _,
      ⟨hw.headFits, rfl⟩, ?_⟩
    simp only [headFields, bind_eq_ok, Prod.exists, require_eq_ok, exact_readSection _ _ _ _ _,
      exact_readDedup _ _ _ _, exact_readOwners _ _ _ _, exact_readHistory _ _ _ _,
      exact_readRetirement _ _ _ _, exact_readChecksum _ _ _, exact_readPrepare _ _ _]
    exact ⟨(), hw.capacity.2, (), hw.capacity.1, _, _, ⟨⟨rfl, hw.consumers⟩, rfl⟩, _, _,
      ⟨⟨rfl, hw.groups⟩, rfl⟩, _, _, ⟨⟨rfl, hw.externalGroups⟩, rfl⟩, _, _, ⟨⟨rfl, hw.dedup⟩, rfl⟩, _, _,
      ⟨hw.owners, (append_assoc ..).symm⟩, _, _, ⟨hw.history, rfl⟩, _, _, ⟨hw.retirement, rfl⟩, _, _,
      ⟨hw.checksum, rfl⟩, _, _, ⟨hw.prepare, rfl⟩, rfl⟩

/-- **The artifact is canonical.** The decoder accepts the valid artifacts, each in its one
encoding. -/
theorem decode_eq_ok {checksum : Bytes → UInt64} {bytes : Bytes}
    {w : ConsumerOffsetsWire} :
    decode checksum bytes = .ok w ↔ w.Valid ∧ bytes = w.encode checksum := by
  have htrailer : ∀ content, splitVerifiedTrailer checksum bytes = .ok content ↔
      bytes = content ++ leBytes 8 (checksum content).toNat := by
    intro content
    unfold splitVerifiedTrailer
    constructor
    · intro h
      split_ifs at h with hlen
      dsimp only at h
      split_ifs at h with hsum
      cases h
      have hdrop : (bytes.drop (bytes.length - 8)).length = 8 := by
        rw [length_drop]
        omega
      have htail := leBytes_leNat (bytes.drop (bytes.length - 8))
      rw [hdrop, hsum] at htail
      rw [htail, take_append_drop]
    · intro h
      have hlen : bytes.length - 8 = content.length := by
        rw [h, length_append, length_leBytes, Nat.add_sub_cancel]
      have htake : bytes.take (bytes.length - 8) = content := by
        rw [hlen, h, take_left]
      have hdrop : bytes.drop (bytes.length - 8) = leBytes 8 (checksum content).toNat := by
        rw [hlen, h, drop_left]
      dsimp only
      rw [if_neg (by rw [h, length_append, length_leBytes]; omega), htake, hdrop,
        leNat_leBytes 8 _ (checksum content).toNat_lt, if_pos rfl]
  simp only [decode, bind_eq_ok, htrailer, Prod.exists, exact_readContent _ _ _, require_eq_ok]
  constructor
  · rintro ⟨content, rfl, w, extra, ⟨hw, rfl⟩, -, rfl, h⟩
    cases h
    rw [append_nil]
    exact ⟨hw, rfl⟩
  · rintro ⟨hw, rfl⟩
    exact ⟨w.content, rfl, w, [], ⟨hw, (append_nil _).symm⟩, (), rfl, rfl⟩

end ConsumerOffsetsWire

end Iggy
