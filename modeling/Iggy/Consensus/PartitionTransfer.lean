import Iggy.Consensus.ClientTableWire
import Iggy.Consensus.PartitionDedup
import Mathlib.Data.List.Sort

/-!
# Partition protection in a state transfer

Source: client_table.rs:796-816, 1322-1417.

A partition sends the dedup state of its clients as one `DedupWatermark` each (`watermarks_sorted`).
The receiver builds its table from them (`install_watermarks`), or keeps its own when one does not
check. The table that is built has the sender's entries (`find_installed`) in other slots; lookups,
counts and capacity are all that checks and commits read, so the two stay alike (`Alike`).
-/

namespace Iggy

open List Lib CachedReply PartitionCommit

/-- A partition's `ClientTable` with its `capacity_committed` flag. -/
structure SliceTable where
  table : ClientTable
  capacityCommitted : Bool

structure DedupWatermark where
  client : Nat
  userId : Nat
  watermark : Nat
  latestCommit : Nat
  committedWindow : BitVec 128
  session : Nat
  reply : Bytes

namespace SliceTable

open ClientEntry ClientTable

variable (maxClients : Nat)

def new : SliceTable :=
  ⟨⟨⟨[], nodup_nil⟩, maxClients, .partitionSlice⟩, false⟩

variable (t : SliceTable)

def commitCapacity (capacity : Nat) : Except ClientTableWireError SliceTable :=
  if capacity = 0 ∨ clientsTableSlotMax < capacity ∨ capacity < t.table.count ∨
      t.capacityCommitted ∧ t.table.clientsMax ≠ capacity then .error (.invalidCapacity capacity)
  else .ok ⟨{ t.table with clientsMax := capacity }, true⟩

def watermarkOf (e : ClientEntry) : DedupWatermark where
  client := e.clientId
  userId := e.userId
  watermark := e.watermark
  latestCommit := e.latestCommit
  committedWindow := e.committedWindow
  session := e.epoch
  reply := (e.ring.getLast?.map bytesOf).getD []

def watermarksSorted : List DedupWatermark :=
  (t.table.slots.entries.map watermarkOf).insertionSort fun a b => a.client ≤ b.client

/-- The receipt and its checks in `install_watermarks`. -/
def restoreEntry (w : DedupWatermark) : Except ClientTableWireError ClientEntry :=
  if w.reply = [] then .error .emptyRing
  else match tryFrom w.reply with
    | .error error => .error error
    | .ok reply =>
      if reply.client ≠ w.client ∨ w.watermark < reply.request ∨
          committedWindowBits ≤ w.watermark - reply.request ∨
          w.committedWindow.getLsbD (w.watermark - reply.request) = false ∨
          reply.commit ≠ w.latestCommit ∨ reply.commit = 0 ∨ reply.frame.size ≠ w.reply.length ∨
          isPartitionReceiptOperation reply.operation = false then .error .invalidReply
      else .ok { watermarkOnly w.client w.userId w.watermark w.committedWindow
          w.latestCommit with epoch := w.session, ring := [reply] }

/-- `acc` are the slots filled so far. -/
def restoreEntries (capacity : Nat) :
    List ClientEntry → List DedupWatermark → Except ClientTableWireError (List ClientEntry)
  | acc, [] => .ok acc
  | acc, w :: rest =>
    if capacity ≤ acc.length then
      .error (.tooManyEntries (min (acc.length + 1) (2 ^ 32 - 1)) capacity)
    else if w.client = 0 ∨ w.session = 0 ∨ w.committedWindow.getLsbD 0 = false then
      .error (.invalidWatermark w.client)
    else if acc.any fun e => e.clientId = w.client then
      .error (.duplicateClientId acc.length w.client)
    else match restoreEntry w with
      | .error error => .error error
      | .ok e => restoreEntries capacity (acc ++ [e]) rest

/-- The table it leaves and its result. -/
def installWatermarks (capacity : Nat) (ws : List DedupWatermark) :
    SliceTable × Except ClientTableWireError Unit :=
  match (new capacity).commitCapacity capacity with
  | .error error => (t, .error error)
  | .ok replacement => match restoreEntries capacity [] ws with
    | .error error => (t, .error error)
    | .ok entries =>
      if h : (entries.map clientId).Nodup then
        (⟨{ replacement.table with slots := ⟨entries.map some, by
          rwa [Slots.reduceOption_map_some]⟩ }, true⟩, .ok ())
      else (t, .error (.duplicateClientId 0 0))  -- not reached: the loop refuses a second entry

inductive Call
  | capacity (capacity : Nat)
  | reply (commit : PartitionCommit)

def step : Call → SliceTable
  | .capacity capacity => match t.commitCapacity capacity with
    | .ok t' => t'
    | .error _ => t
  | .reply commit => { t with table := (t.table.commitCall commit).1 }

variable (calls : List Call)

def run : SliceTable := calls.foldl step t

/-! ## Entries that can be sent -/

structure Sendable (e : ClientEntry) : Prop where
  bindVerifier : e.bindVerifier = List.replicate 32 0
  endedOp : e.endedOp = none
  clientId : e.clientId ≠ 0
  epoch : e.epoch ≠ 0
  window : e.committedWindow.getLsbD 0 = true
  ring : ∃ reply : CachedReply, e.ring = [reply] ∧ reply.Sized ∧ reply.client = e.clientId ∧
    reply.request = e.watermark ∧ reply.commit = e.latestCommit ∧ reply.commit ≠ 0 ∧
    isPartitionReceiptOperation reply.operation = true

theorem or_one_of_getLsbD {w : BitVec 128} (h : w.getLsbD 0 = true) : w ||| 1#128 = w := by
  refine BitVec.eq_of_getLsbD_eq fun i _ => ?_
  rw [BitVec.getLsbD_or]
  by_cases hi : i = 0
  · rw [hi, h, Bool.true_or]
  · rw [Bool.eq_false_iff.mpr ((getLsbD_one i).not.mpr hi), Bool.or_false]

variable {e : ClientEntry}

/-- **One entry.** What is sent of it checks and restores it. -/
theorem Sendable.restoreEntry (h : Sendable e) : restoreEntry (watermarkOf e) = .ok e := by
  obtain ⟨reply, hring, hwell, hclient, hrequest, hcommit, hzero, hreceipt⟩ := h.ring
  have hsent : (watermarkOf e).reply = reply.bytesOf := by simp [watermarkOf, hring]
  have hlen := length_bytesOf hwell.toWellFormed
  have hne : reply.bytesOf ≠ [] := by
    rw [← length_pos_iff, hlen]
    exact Nat.lt_of_lt_of_le (by decide) (Nat.le_add_right headerSize _)
  unfold SliceTable.restoreEntry
  rw [hsent, if_neg hne, tryFrom_bytesOf hwell.toWellFormed]
  dsimp only
  rw [if_neg]
  · obtain ⟨hbind, hended, -, -, hwindow, -⟩ := h
    cases e
    simp_all [watermarkOf, watermarkOnly, or_one_of_getLsbD hwindow]
  · have hwindow := h.window
    simp [watermarkOf, hclient, hrequest, hcommit, hwell.size, hlen, hreceipt, hwindow,
      hcommit ▸ hzero, committedWindowBits]

theorem Sendable.first {c : PartitionCommit} (hok : c.wellFormed = true)
    (hwell : c.reply.Sized) : Sendable (firstReceipt c.userId c.session c.reply) := by
  simp only [wellFormed, Bool.and_eq_true, decide_eq_true_eq] at hok
  obtain ⟨⟨⟨hclient, hsession⟩, hcommit⟩, hreceipt⟩ := hok
  have hentry : firstReceipt c.userId c.session c.reply =
      { watermarkOnly c.reply.client c.userId c.reply.request 1#128 c.reply.commit with
        epoch := c.session, ring := [c.reply], latestCommit := c.reply.commit } := by
    simp [firstReceipt, retainReceipt, findCached, watermarkOnly]
  rw [hentry]
  have hwindow : (1#128 ||| 1#128).getLsbD 0 = true := by decide
  exact ⟨rfl, rfl, hclient, hsession, hwindow,
    ⟨c.reply, rfl, hwell, rfl, rfl, rfl, hcommit, hreceipt⟩⟩

theorem foldRequest_frame (hwindow : e.committedWindow.getLsbD 0 = true) (request commitOp : Nat) :
    (e.foldRequest request commitOp).bindVerifier = e.bindVerifier ∧
      (e.foldRequest request commitOp).endedOp = e.endedOp ∧
      (e.foldRequest request commitOp).committedWindow.getLsbD 0 = true := by
  unfold foldRequest
  split_ifs <;> simp [hwindow]

/-- A higher request takes the ring, a lower one leaves it. -/
theorem Sendable.receipt (h : Sendable e) {c : PartitionCommit} (hok : c.wellFormed = true)
    (hwell : c.reply.Sized) (hclient : c.reply.client = e.clientId) :
    Sendable (receiptEntry c.session c.reply e) := by
  simp only [wellFormed, Bool.and_eq_true, decide_eq_true_eq] at hok
  obtain ⟨⟨⟨-, hsession⟩, hcommit⟩, hreceipt⟩ := hok
  obtain ⟨pinned, hring, hpinned⟩ := h.ring
  obtain ⟨hbind, hended, hbit⟩ := foldRequest_frame h.window c.reply.request c.reply.commit
  have hring' := ring_foldRequest e c.reply.request c.reply.commit
  have hmark := watermark_foldRequest e c.reply.request c.reply.commit
  have hid' : (e.foldRequest c.reply.request c.reply.commit).clientId = e.clientId := by simp
  unfold receiptEntry retainReceipt findCached
  simp only [hring', hring, find?_singleton, getLast?_singleton, hpinned.2.2.1, decide_eq_true_eq]
  rcases lt_trichotomy c.reply.request e.watermark with hlt | heq | hgt
  · -- the pinned reply stays, with its commit
    rw [if_neg hlt.ne', hmark, max_eq_left hlt.le]
    simp only [if_pos hlt]
    refine ⟨hbind.trans h.bindVerifier, hended.trans h.endedOp, hid'.trans_ne h.clientId, hsession,
      hbit, pinned, rfl, hpinned.1, hpinned.2.1.trans hid'.symm, hpinned.2.2.1, rfl,
      hpinned.2.2.2.2⟩
  · -- a repeat of the watermark: its bit is set already, so nothing is folded in
    have hsame : e.foldRequest c.reply.request c.reply.commit = e := by
      unfold foldRequest
      rw [if_neg heq.not_gt, if_neg (by simp [heq, h.window])]
    rw [if_pos heq.symm, hsame]
    exact ⟨h.bindVerifier, h.endedOp, h.clientId, hsession, h.window, pinned, rfl, hpinned⟩
  · rw [if_neg hgt.ne, hmark, max_eq_right hgt.le]
    simp only [if_neg (lt_irrefl _)]
    refine ⟨hbind.trans h.bindVerifier, hended.trans h.endedOp, hid'.trans_ne h.clientId, hsession,
      hbit, c.reply, rfl, hwell, hclient.trans hid'.symm, rfl, rfl, hcommit, hreceipt⟩

/-! ## Reachable tables -/

structure Ready (t : SliceTable) : Prop where
  entries : ∀ client e, t.table.find client = some e → Sendable e
  capacity : t.capacityCommitted = true → t.table.clientsMax ≠ 0 ∧
    t.table.clientsMax ≤ clientsTableSlotMax ∧ t.table.count ≤ t.table.clientsMax

def Call.WellFormed : Call → Prop
  | .capacity _ => True
  | .reply commit => commit.reply.Sized

theorem ready_new : (new maxClients).Ready := ⟨nofun, nofun⟩

variable {t : SliceTable}

theorem Ready.step (h : t.Ready) {call : Call} (hcall : call.WellFormed) : (t.step call).Ready := by
  cases call with
  | capacity capacity =>
    simp only [SliceTable.step, commitCapacity]
    split_ifs with hbad
    · exact h
    · simp only [not_or] at hbad
      exact ⟨h.entries, fun _ => ⟨hbad.1, not_lt.mp hbad.2.1, not_lt.mp hbad.2.2.1⟩⟩
  | reply c =>
    have hstep := t.table.commitCall_step c
    change (⟨(t.table.commitCall c).1, t.capacityCommitted⟩ : SliceTable).Ready
    generalize t.table.commitCall c = out at hstep ⊢
    cases hstep with
    | malformed | fenced | full => exact ⟨h.entries, h.capacity⟩
    | fold t' e hok hfind hself hother hcount hmax =>
      refine ⟨fun client e' hfind' => ?_, fun hcommitted => ?_⟩
      · by_cases hc : client = c.reply.client
        · cases hself.symm.trans (hc ▸ hfind')
          exact (h.entries _ e hfind).receipt hok hcall (clientId_of_find hfind).symm
        · exact h.entries client e' ((hother client hc).symm.trans hfind')
      · rw [hmax, hcount]
        exact h.capacity hcommitted
    | first t' hok hfind hself hother hcount hmax hroom =>
      refine ⟨fun client e' hfind' => ?_, fun hcommitted => ?_⟩
      · by_cases hc : client = c.reply.client
        · cases hself.symm.trans (hc ▸ hfind')
          exact .first hok hcall
        · exact h.entries client e' ((hother client hc).symm.trans hfind')
      · rw [hmax, hcount]
        exact ⟨(h.capacity hcommitted).1, (h.capacity hcommitted).2.1, hroom⟩

theorem ready_run {calls : List Call} (hcalls : ∀ call ∈ calls, call.WellFormed) :
    ∀ {t : SliceTable}, t.Ready → (t.run calls).Ready := by
  induction calls with
  | nil => exact id
  | cons call calls ih =>
    exact fun h => ih (fun c hc => hcalls c (mem_cons_of_mem _ hc))
      (h.step (hcalls call mem_cons_self))

/-! ## Installing -/

theorem restoreEntries_eq {capacity : Nat} {ws : List DedupWatermark} {es : List ClientEntry}
    (h : List.Forall₂ (fun w e => w = watermarkOf e ∧ Sendable e) ws es) (acc : List ClientEntry)
    (hnodup : ((acc ++ es).map clientId).Nodup)
    (hroom : acc.length + es.length ≤ capacity) :
    restoreEntries capacity acc ws = .ok (acc ++ es) := by
  induction h generalizing acc with
  | nil => rw [restoreEntries, append_nil]
  | @cons w e ws es hw _ ih =>
    obtain ⟨rfl, hsend⟩ := hw
    have hnew : ¬ acc.any (fun x => x.clientId = (watermarkOf e).client) = true := by
      simp only [any_eq_true, decide_eq_true_eq, not_exists, not_and]
      intro x hx hsame
      rw [map_append] at hnodup
      exact (nodup_append.mp hnodup).2.2 x.clientId (mem_map_of_mem hx) e.clientId
        (mem_map_of_mem mem_cons_self) hsame
    rw [length_cons] at hroom
    rw [restoreEntries, if_neg (by omega), if_neg, if_neg hnew, hsend.restoreEntry]
    · dsimp only
      rw [ih _ (by simpa using hnodup) (by rw [length_append, length_singleton]; omega),
        append_assoc, singleton_append]
    · rintro (hzero | hzero | hwindow)
      · exact hsend.clientId hzero
      · exact hsend.epoch hzero
      · exact absurd (hsend.window.symm.trans hwindow) (by decide)

/-- Two tables that no check and no commit tells apart. -/
structure Alike (t r : SliceTable) : Prop where
  find : ∀ client, r.table.find client = t.table.find client
  count : r.table.count = t.table.count
  clientsMax : r.table.clientsMax = t.table.clientsMax
  committed : r.capacityCommitted = t.capacityCommitted

/-- **A transfer succeeds** and leaves a table like the one that was sent. -/
theorem Ready.installWatermarks (h : t.Ready) (hcommitted : t.capacityCommitted = true)
    (receiver : SliceTable) :
    ∃ r, receiver.installWatermarks t.table.clientsMax t.watermarksSorted = (r, .ok ()) ∧
      t.Alike r := by
  obtain ⟨hzero, hmax, hroom⟩ := h.capacity hcommitted
  have hsent : List.Forall₂ (fun w e => w = watermarkOf e ∧ Sendable e)
      (t.table.slots.entries.map watermarkOf) t.table.slots.entries := by
    refine forall₂_map_left_iff.mpr (forall₂_same.mpr fun e he => ⟨rfl, ?_⟩)
    exact h.entries e.clientId e (Slots.get_eq_some.mpr ⟨he, rfl⟩)
  -- the sort only permutes what is sent
  obtain ⟨es, hes, hperm⟩ := perm_comp_forall₂
    (perm_insertionSort (fun a b : DedupWatermark => a.client ≤ b.client) _) hsent
  have hnodup : (es.map clientId).Nodup := (hperm.map _).nodup_iff.mpr t.table.slots.unique
  have hlen := hperm.length_eq
  have hentries : restoreEntries t.table.clientsMax [] t.watermarksSorted = .ok es := by
    refine restoreEntries_eq hes [] hnodup ?_
    rw [length_nil, Nat.zero_add, hlen]
    exact hroom
  have hnew : (new t.table.clientsMax).commitCapacity t.table.clientsMax =
      .ok ⟨(new t.table.clientsMax).table, true⟩ := by
    rw [commitCapacity, if_neg]
    · rfl
    · simp [new, ClientTable.count, Slots.entries, hzero, not_lt.mpr hmax]
  simp only [SliceTable.installWatermarks, hnew, hentries, dif_pos hnodup]
  have hsame : ∀ e, e ∈ (es.map some).reduceOption ↔ e ∈ t.table.slots.entries := fun e => by
    rw [Slots.reduceOption_map_some]
    exact hperm.mem_iff
  refine ⟨_, rfl, fun client => ?_, ?_, rfl, hcommitted.symm⟩
  · ext e
    exact Slots.get_eq_some.trans ((and_congr_left' (hsame e)).trans Slots.get_eq_some.symm)
  · change ((es.map some).reduceOption).length = _
    rw [Slots.reduceOption_map_some, hlen]
    rfl

/-! ## Alike tables stay alike -/

/-- What a receipt leaves for its client, given its entry and whether the table is full. -/
def settled (found : Option ClientEntry) (full : Bool) (c : PartitionCommit) : Option ClientEntry :=
  if c.wellFormed then match found with
    | some e => if e.epoch ≠ c.session ∨ e.userId ≠ c.userId then some e
      else some (receiptEntry c.session c.reply e)
    | none => if full then none else some (firstReceipt c.userId c.session c.reply)
  else found

theorem commitCall_eq (t : ClientTable) (c : PartitionCommit) :
    (∀ k, (t.commitCall c).1.find k = if k = c.reply.client then
      settled (t.find k) (t.clientsMax ≤ t.count) c else t.find k) ∧
    (t.commitCall c).1.count = t.count + (if t.find c.reply.client = none ∧
      settled (t.find c.reply.client) (t.clientsMax ≤ t.count) c ≠ none then 1 else 0) ∧
    (t.commitCall c).1.clientsMax = t.clientsMax := by
  unfold commitCall commitPartitionReply settled
  by_cases hok : c.wellFormed = true
  · have hgood : ¬ (c.reply.client = 0 ∨ c.session = 0 ∨ c.reply.commit = 0 ∨
        isPartitionReceiptOperation c.reply.operation = false) := by
      simpa [wellFormed, not_or, and_assoc] using hok
    simp only [if_neg hgood, if_pos hok]
    split
    next t' reply heq =>
      split at heq
      next e hfind =>
        split_ifs at heq with hepoch huser
        cases heq
        refine ⟨fun k => ?_, ?_, rfl⟩
        · split
          next hk =>
            subst hk
            rw [find_update_self, hfind]
            simp [hepoch, huser]
          next hk => exact find_update_of_ne hk
        · simp [count_update, hfind]
      next hfind =>
        split_ifs at heq with hfull
        cases heq
        refine ⟨fun k => ?_, ?_, rfl⟩
        · rw [find_add, clientId_firstReceipt]
          by_cases hk : k = c.reply.client
          · rw [if_pos hk.symm, if_pos hk, hk, hfind]
            simp [hfull]
          · rw [if_neg (Ne.symm hk), if_neg hk]
        · simp [count_add, hfind, hfull]
    next error heq =>
      split at heq
      next e hfind =>
        refine ⟨fun k => ?_, by simp [hfind], rfl⟩
        split
        next hk =>
          subst hk
          split_ifs at heq with hepoch huser
          · simp [hfind, hepoch]
          · simp [hfind, huser]
        next => rfl
      next hfind =>
        split_ifs at heq with hfull
        refine ⟨fun k => ?_, by simp [hfind, hfull], rfl⟩
        split
        next hk => rw [hk, hfind]; simp [hfull]
        next => rfl
  · have hbad : c.reply.client = 0 ∨ c.session = 0 ∨ c.reply.commit = 0 ∨
        isPartitionReceiptOperation c.reply.operation = false := by
      by_contra hgood
      simp only [not_or] at hgood
      exact hok (by simp [wellFormed, hgood])
    simp [hok, hbad]

theorem Alike.step {r : SliceTable} (h : t.Alike r) (call : Call) :
    (t.step call).Alike (r.step call) := by
  cases call with
  | capacity capacity =>
    simp only [SliceTable.step, commitCapacity, h.count, h.clientsMax, h.committed]
    split_ifs
    · exact h
    · exact ⟨h.find, h.count, rfl, rfl⟩
  | reply c =>
    obtain ⟨hfind, hcount, hmax⟩ := commitCall_eq t.table c
    obtain ⟨hfind', hcount', hmax'⟩ := commitCall_eq r.table c
    refine ⟨fun client => ?_, ?_, ?_, h.committed⟩
    · exact (hfind' client).trans (by rw [h.find, h.count, h.clientsMax]; exact (hfind client).symm)
    · exact hcount'.trans (by rw [h.find, h.count, h.clientsMax]; exact hcount.symm)
    · exact hmax'.trans (h.clientsMax.trans hmax.symm)

theorem Alike.run : ∀ {t r : SliceTable}, t.Alike r → (t.run calls).Alike (r.run calls) := by
  induction calls with
  | nil => exact id
  | cons call calls ih => exact fun h => ih (h.step call)

theorem Alike.checkPartitionRequest {r : SliceTable} (h : t.Alike r)
    (clientId userId session request : Nat) (operation : Operation) :
    r.table.checkPartitionRequest clientId userId session request operation =
      t.table.checkPartitionRequest clientId userId session request operation := by
  unfold ClientTable.checkPartitionRequest
  rw [h.find]

theorem installWatermarks_of_error {capacity : Nat} {ws : List DedupWatermark}
    {error : ClientTableWireError} (h : (t.installWatermarks capacity ws).2 = .error error) :
    (t.installWatermarks capacity ws).1 = t := by
  unfold installWatermarks at h ⊢
  cases hcapacity : (new capacity).commitCapacity capacity with
  | error e => rfl
  | ok replacement =>
    cases hentries : restoreEntries capacity [] ws with
    | error e => rfl
    | ok entries =>
      simp only [hcapacity, hentries] at h ⊢
      split_ifs at h with hdup
      rw [dif_neg hdup]

/-- **Partition protection survives a transfer.** A table with a committed capacity, whose replies
are as long as their size says, installs on any table; the result answers every check as the sender
does, now and after any calls on both. A refused installation changes nothing. -/
theorem partition_protection_transfers (hcalls : ∀ call ∈ calls, call.WellFormed)
    (hcommitted : ((new maxClients).run calls).capacityCommitted = true) (receiver : SliceTable) :
    let t := (new maxClients).run calls
    (∃ r, receiver.installWatermarks t.table.clientsMax t.watermarksSorted = (r, .ok ()) ∧
      ∀ later clientId userId session request operation,
        (r.run later).table.checkPartitionRequest clientId userId session request operation =
          (t.run later).table.checkPartitionRequest clientId userId session request operation) ∧
    ∀ capacity ws error, (receiver.installWatermarks capacity ws).2 = .error error →
      (receiver.installWatermarks capacity ws).1 = receiver := by
  intro t
  have hready : t.Ready := ready_run hcalls (ready_new maxClients)
  obtain ⟨r, hinstall, halike⟩ := hready.installWatermarks hcommitted receiver
  refine ⟨⟨r, hinstall, fun later => ?_⟩, fun capacity ws error h => installWatermarks_of_error h⟩
  exact (halike.run later).checkPartitionRequest

def receiptOf (request commit : Nat) (extra : Bytes) : CachedReply :=
  { client := 9, request, commit, operation := .sendMessages, body := extra
    frame := { size := headerSize, command := .reply } }

theorem sized_receiptOf {request commit : Nat} (hrequest : request < 256 ^ 8)
    (hcommit : commit < 256 ^ 8) : (receiptOf request commit []).Sized := by
  refine ⟨⟨?_, rfl, le_rfl, le_rfl, (by decide : headerSize < 256 ^ 4)⟩, rfl⟩
  simp [FieldsFit, widths, fields, receiptOf, headerSize, Command.code, Operation.code]
  exact ⟨hcommit, hrequest⟩

/-- A late lower request behind the pinned receipt stays applied on a table of another capacity,
also behind a later receipt; that table refuses a transfer without capacity. -/
theorem late_request_transfers :
    let t := (new 8).run [.capacity 4, .reply ⟨1, 3, receiptOf 5 1 []⟩,
      .reply ⟨1, 3, receiptOf 2 2 []⟩]
    ∃ r, (new 1).installWatermarks 4 t.watermarksSorted = (r, .ok ()) ∧
      r.table.checkPartitionRequest 9 1 3 2 .sendMessages = .alreadyApplied 2 5 ∧
      (r.run [.reply ⟨1, 3, receiptOf 7 3 []⟩]).table.checkPartitionRequest 9 1 3 2 .sendMessages =
        .alreadyApplied 2 7 ∧
      ((new 1).installWatermarks 0 t.watermarksSorted).1 = new 1 := by
  obtain ⟨⟨r, hinstall, hsame⟩, hrefused⟩ := partition_protection_transfers 8
    [.capacity 4, .reply ⟨1, 3, receiptOf 5 1 []⟩, .reply ⟨1, 3, receiptOf 2 2 []⟩]
    (by
      simp only [forall_mem_cons]
      exact ⟨trivial, sized_receiptOf (by decide) (by decide),
        sized_receiptOf (by decide) (by decide), nofun⟩)
    (by decide +kernel) (new 1)
  refine ⟨r, hinstall, (hsame [] 9 1 3 2 .sendMessages).trans ?_,
    (hsame [.reply ⟨1, 3, receiptOf 7 3 []⟩] 9 1 3 2 .sendMessages).trans ?_, hrefused 0 _ _ rfl⟩
  · decide +kernel
  · decide +kernel

/-- A receipt that is longer than the size in its header is committed, and the table that holds it
does not install. Nor does one whose capacity was never committed and is out of bounds. -/
theorem long_receipt_does_not_transfer :
    let t := (new 4).run [.capacity 4, .reply ⟨1, 3, receiptOf 5 1 [0]⟩]
    (tryFrom (receiptOf 5 1 [0]).bytesOf).toOption = some (receiptOf 5 1 [0]) ∧
      t.table.count = 1 ∧
      (match ((new 4).installWatermarks 4 t.watermarksSorted).2 with
        | .error .invalidReply => true | _ => false) = true ∧
      (match ((new 4).installWatermarks 0 (new 0).watermarksSorted).2 with
        | .error (.invalidCapacity 0) => true | _ => false) = true := by
  decide +kernel

end SliceTable

end Iggy
