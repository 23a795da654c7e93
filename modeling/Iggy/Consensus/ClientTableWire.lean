import Iggy.Consensus.ClientTable
import Iggy.Lib.Cursor

/-!
# The client table on the wire

Source: client_table.rs:1655-1925; server_common/src/consensus_message.rs:317-349, 559-597.

`encode` and `decode` carry a metadata table in a state transfer: its capacity and its entries in
slot order, each with its newest replies. Slots are not written, so `decode` puts the entries into
the first ones. `transferred` is an entry on the other side, and `decode_encode` is the round trip.
`xxh3` is the hash of the trailer.
-/

namespace Iggy

open List Lib

/-! ## Replies -/

namespace CachedReply

def widths : List Nat :=
  [16, 16, 16, 4, 4, 4, 1, 1, 66, 16, 16, 16, 8, 8, 8, 8, 1, 7, 4, 4, 8, 24]

example : widths.sum = headerSize := by decide

def fields (r : CachedReply) : List Nat :=
  [r.frame.checksum, r.frame.checksumBody, r.frame.cluster, r.frame.size, r.frame.view,
    r.frame.release, r.frame.command.code, r.frame.replica, r.frame.reservedFrame,
    r.frame.requestChecksum, r.frame.context, r.client, r.frame.op, r.commit, r.frame.timestamp,
    r.request, r.operation.code, r.frame.operationPadding, r.frame.status, r.frame.reserved,
    r.frame.partitionIncarnation, r.frame.reservedTail]

def bytesOf (r : CachedReply) : Bytes := packFields widths r.fields ++ r.body

/-- `Message::<GenericHeader>::try_from` and `try_into_typed::<ReplyHeader>`, each failure as
`InvalidReply`. -/
def tryFrom (bytes : Bytes) : Except ClientTableWireError CachedReply :=
  match unpackFields widths bytes with
  | [checksum, checksumBody, cluster, size, view, release, command, replica, reservedFrame,
      requestChecksum, context, client, op, commit, timestamp, request, operation,
      operationPadding, status, reserved, partitionIncarnation, reservedTail] =>
    match Command.ofCode? command, Operation.ofCode? operation with
    | some command, some operation =>
      if bytes.length < headerSize ∨ size < headerSize ∨ bytes.length < size ∨
          command ≠ .reply then .error .invalidReply
      else .ok {
        client, request, commit, operation
        body := bytes.drop headerSize
        frame := {
          checksum, checksumBody, cluster, size, view, release, command, replica, reservedFrame,
          requestChecksum, context, op, timestamp, operationPadding, status, reserved,
          partitionIncarnation, reservedTail } }
    | _, _ => .error .invalidReply
  | _ => .error .invalidReply

/-- What holds of every `Message<ReplyHeader>`: its size covers the header and at most its bytes. -/
structure WellFormed (r : CachedReply) : Prop where
  fits : FieldsFit widths r.fields
  command : r.frame.command = .reply
  headerSize_le : headerSize ≤ r.frame.size
  size_le : r.frame.size ≤ r.byteLen
  byteLen_lt : r.byteLen < 256 ^ 4

/-- A reply that is as long as its size says, which a partition table's installation checks. -/
structure Sized (r : CachedReply) : Prop extends WellFormed r where
  size : r.frame.size = r.byteLen

variable {r : CachedReply}

theorem length_bytesOf (h : r.WellFormed) : r.bytesOf.length = r.byteLen := by
  rw [bytesOf, length_append, length_packFields h.fits]
  rfl

theorem WellFormed.ranges (h : r.WellFormed) :
    r.byteLen < 256 ^ 4 ∧ r.client < 256 ^ 16 ∧ r.commit < 256 ^ 8 ∧ r.request < 256 ^ 8 := by
  have hfits := h.fits
  simp only [FieldsFit, widths, fields, forall₂_cons] at hfits
  obtain ⟨-, -, -, -, -, -, -, -, -, -, -, hclient, -, hcommit, -, hrequest, -⟩ := hfits
  exact ⟨h.byteLen_lt, hclient, hcommit, hrequest⟩

theorem tryFrom_bytesOf (h : r.WellFormed) : tryFrom r.bytesOf = .ok r := by
  have hfields : unpackFields widths r.bytesOf = r.fields :=
    unpackFields_packFields_append h.fits _
  have hlen := length_bytesOf h
  have hbody : r.bytesOf.drop headerSize = r.body := drop_left' (length_packFields h.fits)
  have hsmall := h.headerSize_le
  have hlong := h.size_le
  unfold tryFrom
  simp only [hfields, fields, Command.ofCode?_code, Operation.ofCode?_code]
  rw [if_neg, hbody]
  rintro (hshort | hbelow | habove | hother)
  · omega
  · omega
  · omega
  · exact hother h.command

end CachedReply

/-! ## Entries -/

namespace ClientEntry

def transferableReplies (e : ClientEntry) : List CachedReply :=
  e.ring.drop (e.ring.length - replyRingCapacity)

def validReceipts (e : ClientEntry) : Option CachedReply → List CachedReply → Bool
  | _, [] => true
  | previous, r :: rest =>
    if r.client ≠ e.clientId ∨ r.commit < e.epoch ∨ e.watermark < r.request ∨
        (r.request = registerRequestId ∧ (r.operation ≠ .register ∨ r.commit ≠ e.epoch)) ∨
        (r.request ≠ registerRequestId ∧ r.operation = .register) ∨
        (∃ p ∈ previous, r.request ≤ p.request ∨ r.commit ≤ p.commit) then false
    else e.validReceipts (some r) rest

def endsSession (operation : Operation) : Bool :=
  operation = .logout || operation = .updateUserResolved || operation = .deleteUser

def validMetadataProtection (e : ClientEntry) : Bool :=
  if e.clientId = 0 ∨ e.epoch = 0 ∨ e.latestCommit < e.epoch then false
  else match e.ring.getLast? with
    | none => false
    | some latest =>
      if latest.request ≠ e.watermark ∨ latest.commit ≠ e.latestCommit ∨
          (∃ ended ∈ e.endedOp, ended < e.latestCommit ∨
            (ended = e.latestCommit ∧ endsSession latest.operation = false)) then false
      else e.validReceipts none e.ring

/-- A reply behind its length. -/
def encodeReply (r : CachedReply) : Bytes := leBytes 4 r.bytesOf.length ++ r.bytesOf

/-- One entry of the encoding; no end marker is written as 0. -/
def encode (e : ClientEntry) : Bytes :=
  leBytes 16 e.clientId ++ (leBytes 8 e.epoch ++ (leBytes 4 e.userId ++ (leBytes 8 e.watermark ++
    (e.bindVerifier ++ (leBytes 8 (e.endedOp.getD 0) ++ (leBytes 1 e.transferableReplies.length ++
      e.transferableReplies.flatMap encodeReply))))))

def readReplies : Nat → Bytes →
    Except ClientTableWireError (List CachedReply × Bytes)
  | 0, bytes => .ok ([], bytes)
  | n + 1, bytes => do
    let (len, bytes) ← takeNat .truncated 4 bytes
    let (reply, bytes) ← takeBytes .truncated len bytes
    let reply ← CachedReply.tryFrom reply
    let (rest, bytes) ← readReplies n bytes
    return (reply :: rest, bytes)

/-- One entry of the decoding; the window is not transferred. -/
def read (slot : Nat) (bytes : Bytes) :
    Except ClientTableWireError (ClientEntry × Bytes) := do
  let (clientId, bytes) ← takeNat .truncated 16 bytes
  let (epoch, bytes) ← takeNat .truncated 8 bytes
  let (userId, bytes) ← takeNat .truncated 4 bytes
  let (watermark, bytes) ← takeNat .truncated 8 bytes
  let (bindVerifier, bytes) ← takeBytes .truncated 32 bytes
  let (endedOp, bytes) ← takeNat .truncated 8 bytes
  let (ringLen, bytes) ← takeNat .truncated 1 bytes
  if ringLen = 0 then .error .emptyRing
  else if replyRingCapacity < ringLen then .error (.ringTooLong slot ringLen replyRingCapacity)
  else do
    let (ring, bytes) ← readReplies ringLen bytes
    match ring.getLast? with
    | none => .error .emptyRing
    | some latest =>
      let restored : ClientEntry := {
        bindVerifier, epoch, userId, watermark, ring, clientId
        endedOp := if endedOp = 0 then none else some endedOp
        committedWindow := 0
        latestCommit := latest.commit }
      if restored.validMetadataProtection then .ok (restored, bytes)
      else .error (.invalidWatermark clientId)

end ClientEntry

/-! ## The table -/

namespace ClientTable

/-- `CLIENT_TABLE_MAGIC`: "ICT5". -/
def clientTableMagic : Bytes := [0x49, 0x43, 0x54, 0x35]

def content (t : ClientTable) : Bytes :=
  clientTableMagic ++ (leBytes 4 t.clientsMax ++ (leBytes 4 t.count ++
    t.slots.entries.flatMap ClientEntry.encode))

def encode (xxh3 : Bytes → UInt64) (t : ClientTable) : Bytes :=
  t.content ++ leBytes 8 (xxh3 t.content).toNat

/-- The entry loop of `decode`: `acc` are the slots filled so far. -/
def readEntries : Nat → List ClientEntry → Bytes →
    Except ClientTableWireError (List ClientEntry × Bytes)
  | 0, acc, bytes => .ok (acc, bytes)
  | n + 1, acc, bytes => do
    let (entry, bytes) ← ClientEntry.read acc.length bytes
    match acc.findIdx? fun first => first.clientId = entry.clientId with
    | some slot => .error (.duplicateClientId slot entry.clientId)
    | none => readEntries n (acc ++ [entry]) bytes

theorem reduceOption_packed (entries : List ClientEntry) (free : Nat) :
    (entries.map some ++ List.replicate free none).reduceOption = entries := by
  rw [reduceOption_append, reduceOption_replicate_none, append_nil, Slots.reduceOption_map_some]

/-- A table with the entries in its first slots. -/
def packed (capacity : Nat) (entries : List ClientEntry)
    (h : (entries.map ClientEntry.clientId).Nodup) : ClientTable where
  slots := ⟨entries.map some ++ List.replicate (capacity - entries.length) none, by
    rwa [reduceOption_packed]⟩
  clientsMax := capacity
  mode := .metadata

def decodeContent (content : Bytes) : Except ClientTableWireError ClientTable := do
  let (magic, bytes) ← takeBytes .truncated clientTableMagic.length content
  if magic ≠ clientTableMagic then .error .badMagic
  else do
    let (capacity, bytes) ← takeNat .truncated 4 bytes
    let (count, bytes) ← takeNat .truncated 4 bytes
    if capacity < count ∨ clientsTableSlotMax < capacity then
      .error (.tooManyEntries count (min capacity clientsTableSlotMax))
    else if capacity = 0 then .error (.invalidCapacity capacity)
    else do
      let (entries, bytes) ← readEntries count [] bytes
      if bytes ≠ [] then .error .truncated
      else if h : (entries.map ClientEntry.clientId).Nodup then .ok (packed capacity entries h)
      else .error (.duplicateClientId 0 0)  -- not reached: the loop refuses a second entry

def decode (xxh3 : Bytes → UInt64) (bytes : Bytes) :
    Except ClientTableWireError ClientTable :=
  if bytes.length < 8 then .error .truncated
  else
    let content := bytes.take (bytes.length - 8)
    let expected := leNat (bytes.drop (bytes.length - 8))
    let actual := (xxh3 content).toNat
    if expected = actual then decodeContent content else .error (.checksumMismatch expected actual)

end ClientTable

/-! ## What the protection of an entry says -/

namespace ClientEntry

structure ReceiptOk (e : ClientEntry) (r : CachedReply) : Prop where
  client : r.client = e.clientId
  epoch : e.epoch ≤ r.commit
  watermark : r.request ≤ e.watermark
  register : r.request = registerRequestId → r.operation = .register ∧ r.commit = e.epoch
  request : r.request ≠ registerRequestId → r.operation ≠ .register

/-- The protection that `valid_metadata_protection` checks. -/
structure Protected (e : ClientEntry) : Prop where
  clientId : e.clientId ≠ 0
  epoch : e.epoch ≠ 0
  latest : ∃ init latest, e.ring = init ++ [latest] ∧ latest.request = e.watermark ∧
    latest.commit = e.latestCommit ∧
    ∀ ended ∈ e.endedOp, e.latestCommit ≤ ended ∧
      (ended = e.latestCommit → endsSession latest.operation = true)
  receipts : ∀ r ∈ e.ring, e.ReceiptOk r
  increasing : e.ring.Pairwise fun x y => x.request < y.request ∧ x.commit < y.commit

variable {e : ClientEntry} {ring : List CachedReply}

theorem validReceipts_of_receiptOk {previous : Option CachedReply} (hok : ∀ r ∈ ring, e.ReceiptOk r)
    (hinc : ring.Pairwise fun x y => x.request < y.request ∧ x.commit < y.commit)
    (hprev : ∀ p ∈ previous, ∀ r ∈ ring, p.request < r.request ∧ p.commit < r.commit) :
    e.validReceipts previous ring = true := by
  induction ring generalizing previous with
  | nil => rfl
  | cons r rest ih =>
    have hr := hok r mem_cons_self
    rw [pairwise_cons] at hinc
    rw [validReceipts, if_neg]
    · refine ih (fun x hx => hok x (mem_cons_of_mem _ hx)) hinc.2 fun p hp x hx => ?_
      rw [← Option.mem_some_iff.mp hp]
      exact hinc.1 x hx
    · rintro (h | h | h | ⟨hreg, h⟩ | ⟨hreq, h⟩ | ⟨p, hp, h⟩)
      · exact h hr.client
      · exact not_lt.mpr hr.epoch h
      · exact not_lt.mpr hr.watermark h
      · exact h.elim (· (hr.register hreg).1) (· (hr.register hreg).2)
      · exact hr.request hreq h
      · have := hprev p hp r mem_cons_self
        omega

theorem validMetadataProtection_of_protected (h : e.Protected) :
    e.validMetadataProtection = true := by
  obtain ⟨init, latest, hring, hrequest, hcommit, hended⟩ := h.latest
  have hmem : latest ∈ e.ring := by rw [hring]; exact mem_append_right _ mem_cons_self
  have hepoch := (h.receipts latest hmem).epoch
  have hlast : e.ring.getLast? = some latest := by rw [hring, getLast?_concat]
  unfold validMetadataProtection
  rw [if_neg]
  · simp only [hlast]
    rw [if_neg]
    · exact validReceipts_of_receiptOk h.receipts h.increasing fun p hp =>
        absurd hp (Option.not_mem_none p)
    · rintro (hne | hne | ⟨ended, hmem, hlt | ⟨heq, hends⟩⟩)
      · exact hne hrequest
      · exact hne hcommit
      · exact not_lt.mpr (hended ended hmem).1 hlt
      · rw [(hended ended hmem).2 heq] at hends
        cases hends
  · rintro (hzero | hzero | hlt)
    · exact h.clientId hzero
    · exact h.epoch hzero
    · omega

def transferred (e : ClientEntry) : ClientEntry :=
  { e with ring := e.transferableReplies, committedWindow := 0 }

theorem transferableReplies_suffix (e : ClientEntry) : e.transferableReplies <:+ e.ring :=
  drop_suffix _ _

theorem length_transferableReplies (e : ClientEntry) :
    e.transferableReplies.length = min replyRingCapacity e.ring.length := by
  rw [transferableReplies, length_drop]
  omega

theorem Protected.of_suffix (h : e.Protected) (hsuffix : ring <:+ e.ring) (hne : ring ≠ []) :
    ClientEntry.Protected { e with ring := ring, committedWindow := 0 } := by
  obtain ⟨init, latest, hring, hrest⟩ := h.latest
  refine ⟨h.clientId, h.epoch, ?_, fun r hr => ?_, h.increasing.sublist hsuffix.sublist⟩
  · obtain ⟨pre, hpre⟩ := hsuffix
    obtain ⟨init', last, rfl⟩ := (eq_nil_or_concat ring).resolve_left hne
    rw [concat_eq_append] at hpre ⊢
    rw [hring, ← append_assoc] at hpre
    obtain rfl : last = latest := singleton_inj.mp (append_inj' hpre rfl).2
    exact ⟨init', last, rfl, hrest⟩
  · have hok := h.receipts r (hsuffix.subset hr)
    exact ⟨hok.client, hok.epoch, hok.watermark, hok.register, hok.request⟩

theorem Protected.ring_ne_nil (h : e.Protected) : e.ring ≠ [] := by
  obtain ⟨init, latest, hring, -⟩ := h.latest
  simp [hring]

theorem Protected.transferred (h : e.Protected) : e.transferred.Protected := by
  refine h.of_suffix e.transferableReplies_suffix fun hnil => h.ring_ne_nil ?_
  have hlen := e.length_transferableReplies
  rw [hnil] at hlen
  have hcap : replyRingCapacity = 5 := rfl
  exact length_eq_zero_iff.mp (by rw [length_nil] at hlen; omega)

structure Fits (e : ClientEntry) : Prop where
  clientId : e.clientId < 256 ^ 16
  epoch : e.epoch < 256 ^ 8
  userId : e.userId < 256 ^ 4
  watermark : e.watermark < 256 ^ 8
  bindVerifier : e.bindVerifier.length = 32
  endedOp : ∀ ended ∈ e.endedOp, 0 < ended ∧ ended < 256 ^ 8
  replies : ∀ r ∈ e.ring, r.WellFormed

/-! ## Round trip -/

theorem readReplies_encodeReply (h : ∀ r ∈ ring, r.WellFormed) (rest : Bytes) :
    readReplies ring.length (ring.flatMap encodeReply ++ rest) = .ok (ring, rest) := by
  induction ring with
  | nil => rfl
  | cons r ring ih =>
    have hr := h r mem_cons_self
    have hlen := CachedReply.length_bytesOf hr
    have hlt : r.bytesOf.length < 256 ^ 4 := hlen ▸ hr.ranges.1
    rw [length_cons, readReplies, flatMap_cons, encodeReply]
    simp only [append_assoc, takeNat_append _ hlt, takeBytes_append _ rfl,
      CachedReply.tryFrom_bytesOf hr, ih fun x hx => h x (mem_cons_of_mem _ hx), ok_bind]
    rfl

/-- **An entry is read back** as `transferred`. -/
theorem read_encode (hfits : e.Fits) (hok : e.Protected) (slot : Nat) (rest : Bytes) :
    read slot (e.encode ++ rest) = .ok (e.transferred, rest) := by
  have hended : e.endedOp.getD 0 < 256 ^ 8 := by
    cases h : e.endedOp with
    | none => decide
    | some ended => exact (hfits.endedOp ended h).2
  have hmark : (if e.endedOp.getD 0 = 0 then none else some (e.endedOp.getD 0)) = e.endedOp := by
    cases h : e.endedOp with
    | none => rfl
    | some ended => exact if_neg (hfits.endedOp ended h).1.ne'
  have hlen := e.length_transferableReplies
  have hcap : replyRingCapacity = 5 := rfl
  obtain ⟨init, latest, hring, hrequest, hcommit, -⟩ := hok.transferred.latest
  have hlast : e.transferableReplies.getLast? = some latest := by
    rw [show e.transferableReplies = init ++ [latest] from hring, getLast?_concat]
  have hpos : e.transferableReplies.length ≠ 0 := by
    rw [show e.transferableReplies = init ++ [latest] from hring, length_append]
    exact Nat.succ_ne_zero _
  have hreplies : ∀ r ∈ e.transferableReplies, r.WellFormed := fun r hr =>
    hfits.replies r (e.transferableReplies_suffix.subset hr)
  unfold read encode
  simp only [append_assoc, takeNat_append _ hfits.clientId, takeNat_append _ hfits.epoch,
    takeNat_append _ hfits.userId, takeNat_append _ hfits.watermark,
    takeBytes_append _ hfits.bindVerifier, takeNat_append _ hended,
    takeNat_append _ (show e.transferableReplies.length < 256 ^ 1 by omega), ok_bind,
    if_neg hpos, if_neg (show ¬replyRingCapacity < e.transferableReplies.length by omega),
    readReplies_encodeReply hreplies, hlast, hmark]
  have hrestored : (⟨e.bindVerifier, e.endedOp, e.epoch, e.userId, e.watermark, 0,
      e.transferableReplies, e.clientId, latest.commit⟩ : ClientEntry) = e.transferred := by
    rw [hcommit]
    rfl
  rw [hrestored, if_pos (validMetadataProtection_of_protected hok.transferred)]

end ClientEntry

namespace ClientTable

variable {t : ClientTable}

structure Transferable (t : ClientTable) : Prop where
  capacity_pos : 0 < t.clientsMax
  capacity_le : t.clientsMax ≤ clientsTableSlotMax
  count_le : t.count ≤ t.clientsMax
  fits : ∀ e ∈ t.slots.entries, e.Fits
  protect : ∀ e ∈ t.slots.entries, e.Protected

theorem clientIds_transferred (entries : List ClientEntry) :
    (entries.map ClientEntry.transferred).map ClientEntry.clientId =
      entries.map ClientEntry.clientId := by
  rw [map_map]
  rfl

def transferred (t : ClientTable) : ClientTable :=
  packed t.clientsMax (t.slots.entries.map ClientEntry.transferred) (by
    rw [clientIds_transferred]
    exact t.slots.unique)

theorem readEntries_encode {entries acc : List ClientEntry} (hfits : ∀ e ∈ entries, e.Fits)
    (hok : ∀ e ∈ entries, e.Protected) (rest : Bytes)
    (hnodup : (acc.map ClientEntry.clientId ++ entries.map ClientEntry.clientId).Nodup) :
    readEntries entries.length acc (entries.flatMap ClientEntry.encode ++ rest) =
      .ok (acc ++ entries.map ClientEntry.transferred, rest) := by
  induction entries generalizing acc with
  | nil => rw [map_nil, append_nil]; rfl
  | cons e entries ih =>
    have hnew : acc.findIdx? (fun first => first.clientId = e.transferred.clientId) = none := by
      rw [findIdx?_eq_none_iff]
      intro x hx
      have hdisjoint := (nodup_append.mp hnodup).2.2 x.clientId (mem_map_of_mem hx)
        e.clientId mem_cons_self
      exact decide_eq_false hdisjoint
    have hrest : ((acc ++ [e.transferred]).map ClientEntry.clientId ++
        entries.map ClientEntry.clientId).Nodup := by
      rwa [map_append, append_assoc]
    rw [length_cons, readEntries, flatMap_cons, append_assoc,
      ClientEntry.read_encode (hfits e mem_cons_self) (hok e mem_cons_self), ok_bind]
    simp only [hnew]
    rw [ih (fun x hx => hfits x (mem_cons_of_mem _ hx))
      (fun x hx => hok x (mem_cons_of_mem _ hx)) hrest, append_assoc]
    rfl

/-- **Round trip.** The other side gets the entries with their newest replies, in slot order and
without the free slots. -/
theorem decode_encode (xxh3 : Bytes → UInt64) (h : t.Transferable) :
    decode xxh3 (t.encode xxh3) = .ok t.transferred := by
  have hcount : t.slots.entries.length ≤ t.clientsMax := h.count_le
  have hmax : t.clientsMax < 256 ^ 4 := h.capacity_le.trans_lt (by decide)
  have htrailer : (leBytes 8 (xxh3 t.content).toNat).length = 8 := length_leBytes ..
  have hlen : (t.encode xxh3).length = t.content.length + 8 := by
    rw [encode, length_append, htrailer]
  have hcontent : (t.encode xxh3).take ((t.encode xxh3).length - 8) = t.content := by
    rw [hlen, Nat.add_sub_cancel]
    exact take_left
  have hhash : leNat ((t.encode xxh3).drop ((t.encode xxh3).length - 8)) =
      (xxh3 t.content).toNat := by
    rw [hlen, Nat.add_sub_cancel, encode, drop_left]
    exact leNat_leBytes _ _ (xxh3 t.content).toNat_lt
  have hentries : readEntries t.count [] (t.slots.entries.flatMap ClientEntry.encode) =
      .ok (t.slots.entries.map ClientEntry.transferred, []) := by
    have := @readEntries_encode _ [] h.fits h.protect [] t.slots.unique
    rwa [append_nil] at this
  rw [decode, if_neg (by omega)]
  simp only [hcontent, hhash, if_true]
  unfold decodeContent content
  simp only [takeBytes_append _ rfl, takeNat_append _ hmax,
    takeNat_append _ (show t.count < 256 ^ 4 from hcount.trans_lt hmax), ok_bind, ne_eq,
    not_true_eq_false, if_false,
    if_neg (show ¬(t.clientsMax < t.count ∨ clientsTableSlotMax < t.clientsMax) from
      not_or.mpr ⟨not_lt.mpr hcount, not_lt.mpr h.capacity_le⟩),
    if_neg h.capacity_pos.ne', hentries]
  rw [dif_pos (by rw [clientIds_transferred]; exact t.slots.unique)]
  rfl

end ClientTable

end Iggy
