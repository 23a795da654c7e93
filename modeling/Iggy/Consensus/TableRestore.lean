import Iggy.Consensus.TableTransfer

/-!
# A restored client table and the one it was made from

Source: client_table.rs:623-681, 816-927, 1473-1493.

A replica gets its client table back from the wire form of state transfer, which carries the newest
five replies of each session, or from the checkpoint on disk, which carries the newest one.
`Restored` relates the table to what it came from by what a lookup finds: the wire form does not say
which slots are free, so later registrations may take other ones. Every operation gives the same
result on both, except that `end_user_sessions` lists the ended sessions in slot order
(`Restored.step`). A request whose reply the form did not carry is answered without it
(`Restored.checkRequest`).
-/

namespace Iggy

open List Lib ClientEntry ClientTable Slots

/-! ## The checkpoint form -/

/-- `reply` is the bytes of the newest reply. -/
structure ClientEntrySnapshot where
  bindVerifier : Bytes
  endedOp : Option Nat
  clientId : Nat
  epoch : Nat
  userId : Nat
  watermark : Nat
  reply : Bytes
  deriving DecidableEq

structure ClientTableSnapshot where
  capacity : Nat
  slots : List (Nat × ClientEntrySnapshot)
  deriving DecidableEq

inductive ClientTableDecodeError
  | slotOutOfRange (slot max : Nat)
  | invalidReply (slot : Nat)
  | duplicateClientId (slot firstSlot clientId : Nat)
  | duplicateSlot (slot : Nat)
  | invalidEntry (slot : Nat)
  deriving DecidableEq

def ClientEntry.toSnapshot (e : ClientEntry) : ClientEntrySnapshot where
  bindVerifier := e.bindVerifier
  endedOp := e.endedOp
  clientId := e.clientId
  epoch := e.epoch
  userId := e.userId
  watermark := e.watermark
  reply := (e.ring.getLast?.map CachedReply.bytesOf).getD []

def ClientEntrySnapshot.restore (entry : ClientEntrySnapshot) (reply : CachedReply) : ClientEntry where
  bindVerifier := entry.bindVerifier
  endedOp := entry.endedOp
  epoch := entry.epoch
  userId := entry.userId
  watermark := entry.watermark
  committedWindow := 0
  ring := [reply]
  clientId := entry.clientId
  latestCommit := reply.commit

namespace ClientTable

def snapshotSlots : Nat → List (Option ClientEntry) → List (Nat × ClientEntrySnapshot)
  | _, [] => []
  | slot, none :: rest => snapshotSlots (slot + 1) rest
  | slot, some e :: rest => (slot, e.toSnapshot) :: snapshotSlots (slot + 1) rest

def toSnapshot (t : ClientTable) : ClientTableSnapshot :=
  ⟨t.clientsMax, snapshotSlots 0 t.slots.slots⟩

def placeEntries : List (Nat × ClientEntrySnapshot) → List (Option ClientEntry) →
    Except ClientTableDecodeError (List (Option ClientEntry))
  | [], slots => .ok slots
  | (slot, entry) :: rest, slots => do
    let reply ← (CachedReply.tryFrom entry.reply).mapError fun _ =>
      ClientTableDecodeError.invalidReply slot
    match slots.findIdx? (·.any (·.clientId = entry.clientId)) with
    | some first => .error (.duplicateClientId slot first entry.clientId)
    | none =>
      if slots[slot]?.join.isSome then .error (.duplicateSlot slot)
      else if (entry.restore reply).validMetadataProtection then
        placeEntries rest (slots.set slot (some (entry.restore reply)))
      else .error (.invalidEntry slot)

def fromSnapshot (snapshot : ClientTableSnapshot) : Except ClientTableDecodeError ClientTable :=
  if snapshot.capacity = 0 ∨ clientsTableSlotMax < snapshot.capacity then
    .error (.slotOutOfRange snapshot.capacity clientsTableSlotMax)
  else match snapshot.slots.find? (snapshot.capacity ≤ ·.1) with
    | some (slot, _) => .error (.slotOutOfRange slot snapshot.capacity)
    | none => do
      let slots ← placeEntries snapshot.slots (List.replicate snapshot.capacity none)
      if h : (slots.reduceOption.map clientId).Nodup then
        .ok ⟨⟨slots, h⟩, snapshot.capacity, .metadata⟩
      else .error (.duplicateClientId 0 0 0)  -- not reached: the loop refuses a second entry

end ClientTable

/-! ## Entries with fewer replies -/

namespace ClientEntry

def keepNewest (kept : Nat) (e : ClientEntry) : ClientEntry :=
  { e with ring := e.ring.rtake kept, committedWindow := 0 }

structure Kept (lost : List CachedReply) (e e' : ClientEntry) : Prop where
  bindVerifier : e'.bindVerifier = e.bindVerifier
  endedOp : e'.endedOp = e.endedOp
  epoch : e'.epoch = e.epoch
  userId : e'.userId = e.userId
  watermark : e'.watermark = e.watermark
  clientId : e'.clientId = e.clientId
  latestCommit : e'.latestCommit = e.latestCommit
  ring : ∃ old, e.ring = old ++ e'.ring ∧ ∀ r ∈ old, r ∈ lost

variable {e e' : ClientEntry} {lost : List CachedReply} {reply : CachedReply}

theorem Protected.rtake_ne_nil {kept : Nat} (h : e.Protected) (hkept : 0 < kept) :
    e.ring.rtake kept ≠ [] := by
  obtain ⟨latest, hring, -⟩ := h.ring_eq
  obtain ⟨n, rfl⟩ := Nat.exists_eq_succ_of_ne_zero hkept.ne'
  rw [hring, rtake_concat_succ]
  simp

theorem Settled.keepNewest {lastOp kept : Nat} {revoking : Bool} (h : e.Settled lastOp revoking)
    (hkept : 0 < kept) : (e.keepNewest kept).Settled lastOp revoking :=
  ⟨{ h.fits with replies := fun r hr => h.fits.replies r ((drop_suffix _ _).subset hr) },
    h.protect.of_suffix (drop_suffix _ _) (h.protect.rtake_ne_nil hkept), h.latest_le,
    h.latest_lt, h.ended_le⟩

theorem kept_keepNewest (kept : Nat) (e : ClientEntry) :
    Kept (e.ring.rdrop kept) e (e.keepNewest kept) where
  bindVerifier := rfl
  endedOp := rfl
  epoch := rfl
  userId := rfl
  watermark := rfl
  clientId := rfl
  latestCommit := rfl
  ring := by
    refine ⟨e.ring.rdrop kept, ?_, fun r hr => hr⟩
    unfold keepNewest rdrop rtake
    exact (take_append_drop (e.ring.length - kept) e.ring).symm

theorem kept_refl (lost : List CachedReply) (e : ClientEntry) : Kept lost e e :=
  ⟨rfl, rfl, rfl, rfl, rfl, rfl, rfl, [], rfl, nofun⟩

theorem Kept.agree (h : Kept lost e e') : e.Agree e' := by
  refine ⟨e'.ring, e'.committedWindow, ?_⟩
  rw [← h.bindVerifier, ← h.endedOp, ← h.epoch, ← h.userId, ← h.watermark, ← h.clientId,
    ← h.latestCommit]

theorem trimRing_append (old ring : List CachedReply) :
    ∃ old', trimRing (old ++ ring) = old' ++ trimRing ring ∧ old' <:+ old := by
  induction old with
  | nil => exact ⟨[], rfl, suffix_refl _⟩
  | cons r old ih =>
    rw [cons_append, trimRing]
    split
    · obtain ⟨old', heq, hsuffix⟩ := ih
      exact ⟨old', heq, hsuffix.trans (suffix_cons r old)⟩
    case isFalse hstop =>
      refine ⟨r :: old, ?_, suffix_refl _⟩
      -- a longer ring within the limits leaves the shorter one alone
      have hring : trimRing ring = ring := by
        cases ring with
        | nil => rfl
        | cons x ring =>
          rw [trimRing, if_neg]
          rintro ⟨hlong, hbytes⟩
          refine hstop ⟨?_, ?_⟩
          · simp only [length_cons, length_append] at hlong ⊢
            omega
          · simp only [map_cons, map_append, sum_cons, sum_append] at hbytes ⊢
            omega
      rw [hring, cons_append]

section

variable (h : Kept lost e e')
include h

theorem Kept.cacheReply (hp : e.Protected) (hp' : e'.Protected) (reply : CachedReply) :
    Kept lost (e.cacheReply reply) (e'.cacheReply reply) := by
  rw [hp.cacheReply_ringWith, hp'.cacheReply_ringWith]
  obtain ⟨old, hring, hlost⟩ := h.ring
  refine { h with watermark := rfl, latestCommit := rfl, ring := ?_ }
  simp only [ringWith, h.watermark]
  split
  · refine ⟨old, ?_, hlost⟩
    rw [hring, dropLast_append_of_ne_nil hp'.ring_ne_nil, append_assoc]
  · obtain ⟨old', heq, hsuffix⟩ := trimRing_append old (e'.ring ++ [reply])
    exact ⟨old', by rw [hring, append_assoc, heq], fun r hr => hlost r (hsuffix.subset hr)⟩

theorem Kept.endAt (endedOp : Nat) : Kept lost (e.endAt endedOp) (e'.endAt endedOp) :=
  { h with endedOp := rfl }

theorem Kept.revoke (userId endedOp : Nat) :
    Kept lost (e.revoke userId endedOp) (e'.revoke userId endedOp) := by
  unfold ClientEntry.revoke
  rw [h.userId, h.endedOp]
  split
  · exact h.endAt endedOp
  · exact h

theorem Kept.findCached (hp : e.Protected) (request : Nat) :
    e'.findCached request = e.findCached request ∨ ∃ r ∈ lost, r.request = request ∧
      e.findCached request = some r ∧ e'.findCached request = none := by
  obtain ⟨old, hring, hlost⟩ := h.ring
  have hinc := hp.increasing
  rw [hring] at hinc
  unfold ClientEntry.findCached
  rw [hring, find?_append]
  cases hfind : old.find? fun cached => cached.request = request with
  | none => exact .inl rfl
  | some r =>
    have hr := mem_of_find?_eq_some hfind
    have hrequest : r.request = request := by simpa using find?_some hfind
    refine .inr ⟨r, hlost r hr, hrequest, rfl, find?_eq_none.mpr fun x hx => ?_⟩
    have hlt := ((pairwise_append.mp hinc).2.2 r hr x hx).1
    simp only [decide_eq_true_eq]
    omega

/-- How the restored table may answer otherwise: a lost reply is not given again. -/
inductive Forgets (lost : List CachedReply) (request : Nat) : RequestStatus → RequestStatus → Prop
  | same (status : RequestStatus) : Forgets lost request status status
  | applied {r : CachedReply} {status : RequestStatus} (watermark : Nat) (hr : r ∈ lost)
      (hrequest : r.request = request)
      (hstatus : status = .duplicate r ∨ status = .operationMismatch request) :
      Forgets lost request status (.alreadyApplied request watermark)
  | ended {r : CachedReply} {status : RequestStatus} (hr : r ∈ lost) (hrequest : r.request = request)
      (hlogout : r.operation = .logout)
      (hstatus : status = .duplicate r ∨ status = .operationMismatch request) :
      Forgets lost request status .noSession

theorem Kept.checkSession (hp : e.Protected) (epoch request : Nat) (operation : Operation) :
    Forgets lost request (e.checkSession epoch request operation)
      (e'.checkSession epoch request operation) := by
  unfold ClientEntry.checkSession
  rw [h.endedOp, h.epoch, h.watermark]
  obtain heq | ⟨r, hr, hrequest, hfound, hnone⟩ := h.findCached hp request
  · rw [heq]
    exact .same _
  rw [hfound, hnone]
  split
  · by_cases hepoch : epoch = e.epoch
    · simp only [if_pos hepoch]
      by_cases hlogout : r.operation = .logout
      · simp only [if_pos hlogout]
        split
        · exact .ended hr hrequest hlogout (.inl rfl)
        · exact .ended hr hrequest hlogout (.inr rfl)
      · simp only [if_neg hlogout]
        exact .same _
    · simp only [if_neg hepoch]
      exact .same _
  · split
    · exact .same _
    split
    · exact .same _
    split
    · exact .same _
    simp only
    split
    · exact .applied _ hr hrequest (.inr rfl)
    · exact .applied _ hr hrequest (.inl rfl)

end

end ClientEntry

/-! ## Tables with the same sessions -/

namespace ClientTable

structure FindRel (lost : Nat → List CachedReply) (t t' : ClientTable) : Prop where
  rel : ∀ clientId,
    Option.Rel (ClientEntry.Kept (lost clientId)) (t.find clientId) (t'.find clientId)
  capacity : t.clientsMax = t'.clientsMax

variable {lost : Nat → List CachedReply} {t t' : ClientTable} {clientId : Nat}

section

variable (h : FindRel lost t t')
include h

theorem FindRel.find (clientId : Nat) : (t.find clientId = none ∧ t'.find clientId = none) ∨
      ∃ e e', t.find clientId = some e ∧ t'.find clientId = some e' ∧
        ClientEntry.Kept (lost clientId) e e' :=
  rel_cases (h.rel clientId)

theorem FindRel.update {f : ClientEntry → ClientEntry} (hf : ∀ e, (f e).clientId = e.clientId)
    (hkept : ∀ e e', t.find clientId = some e → t'.find clientId = some e' →
      ClientEntry.Kept (lost clientId) e e' → ClientEntry.Kept (lost clientId) (f e) (f e')) :
    FindRel lost (t.update clientId f hf) (t'.update clientId f hf) := by
  refine ⟨fun c => ?_, h.capacity⟩
  by_cases hc : c = clientId
  · subst hc
    rw [find_update_self, find_update_self]
    obtain ⟨hnone, hnone'⟩ | ⟨e, e', hfind, hfind', hrel⟩ := h.find c
    · rw [hnone, hnone']
      exact .none
    · rw [hfind, hfind']
      exact .some (hkept e e' hfind hfind' hrel)
  · rw [find_update_of_ne hc, find_update_of_ne hc]
    exact h.rel c

theorem FindRel.add {e : ClientEntry} (hfind : t.find e.clientId = none)
    (hfind' : t'.find e.clientId = none) : FindRel lost (t.add e hfind) (t'.add e hfind') := by
  refine ⟨fun c => ?_, h.capacity⟩
  rw [find_add, find_add]
  split
  · exact .some (kept_refl _ e)
  · exact h.rel c

theorem FindRel.perm_clientIds :
    (t.slots.entries.map ClientEntry.clientId).Perm (t'.slots.entries.map ClientEntry.clientId) := by
  have hmem (u : ClientTable) (c : Nat) :
      c ∈ u.slots.entries.map clientId ↔ (u.find c).isSome = true := by
    rw [Option.isSome_iff_exists, mem_map]
    exact exists_congr fun e => get_eq_some.symm
  refine (perm_ext_iff_of_nodup t.slots.unique t'.slots.unique).mpr fun c => ?_
  refine (hmem t c).trans (Iff.trans ?_ (hmem t' c).symm)
  obtain ⟨hnone, hnone'⟩ | ⟨e, e', hfind, hfind', -⟩ := h.find c
  · rw [hnone, hnone']
  · simp only [hfind, hfind', Option.isSome_some]

theorem FindRel.count_eq : t.count = t'.count := by
  have hlen := h.perm_clientIds.length_eq
  rwa [length_map, length_map] at hlen

/-! ## The operations -/

theorem FindRel.agree : t.Agree t' :=
  ⟨fun clientId => (h.find clientId).imp_right fun ⟨e, e', hfind, hfind', hkept⟩ =>
    ⟨e, e', hfind, hfind', hkept.agree⟩, h.capacity, h.count_eq⟩

def Safe (t : ClientTable) : Prop := ∀ clientId e, t.find clientId = some e → e.Protected

theorem FindRel.endUserSessions (userId endedOp : Nat) :
    FindRel lost (t.endUserSessions userId endedOp).1 (t'.endUserSessions userId endedOp).1 := by
  refine ⟨fun c => ?_, h.capacity⟩
  have hmap (u : ClientTable) : (u.endUserSessions userId endedOp).1.find c =
      (u.find c).map (·.revoke userId endedOp) :=
    get_map (clientId_revoke · userId endedOp) c
  rw [hmap, hmap]
  obtain ⟨hnone, hnone'⟩ | ⟨e, e', hfind, hfind', hkept⟩ := h.find c
  · rw [hnone, hnone']
    exact .none
  · rw [hfind, hfind']
    exact .some (hkept.revoke userId endedOp)

theorem FindRel.forgotten (clientId : Nat) :
    FindRel lost (t.forgotten clientId) (t'.forgotten clientId) := by
  refine ⟨fun c => ?_, h.capacity⟩
  have herase (u : ClientTable) :
      (u.forgotten clientId).find c = if c = clientId then none else u.find c := get_erase c
  rw [herase, herase]
  split
  · exact .none
  · exact h.rel c

theorem FindRel.cached (hsafe : t.Safe) (hsafe' : t'.Safe) (reply : CachedReply) :
    FindRel lost (t.cached reply) (t'.cached reply) :=
  h.update _ fun e e' hfind hfind' hkept =>
    hkept.cacheReply (hsafe _ e hfind) (hsafe' _ e' hfind') reply

/-! ## Binding queries -/

inductive BindError
  | transientNotAccepted | unauthenticated | invalidSession (session : Nat)
  deriving DecidableEq

def registeredSession (t : ClientTable) (clientId userId : Nat) (verifier : Bytes) :
    Except BindError (Option Nat) :=
  match t.find clientId with
  | none => .ok none
  | some entry =>
    if entry.userId ≠ userId ∨ entry.endedOp.isSome ∨ entry.bindVerifier ≠ verifier then
      .error .unauthenticated
    else .ok (some entry.epoch)

variable (bindVerifier : Nat → Nat → Bytes → Bytes)

/-- Without the local attachment; `bindVerifier` is the hash of the credential. -/
def bindSession (t : ClientTable) (clientId session : Nat) (secret : Bytes) :
    Except BindError (Nat × Nat) := do
  match t.find clientId with
  | none => .error (if session = 0 then .transientNotAccepted else .unauthenticated)
  | some entry =>
    match ← t.registeredSession clientId entry.userId (bindVerifier clientId entry.userId secret) with
    | none => .error .unauthenticated
    | some epoch =>
      if session ≠ 0 ∧ session ≠ epoch then .error (.invalidSession session)
      else if entry.epoch ≠ epoch ∨ epoch = 0 ∨ entry.endedOp.isSome then .error .unauthenticated
      else .ok (entry.userId, epoch)

theorem FindRel.registeredSession_eq (clientId userId : Nat) (verifier : Bytes) :
    t'.registeredSession clientId userId verifier = t.registeredSession clientId userId verifier := by
  unfold registeredSession
  obtain ⟨hnone, hnone'⟩ | ⟨e, e', hfind, hfind', hkept⟩ := h.find clientId
  · rw [hnone, hnone']
  · simp only [hfind, hfind', hkept.userId, hkept.endedOp, hkept.bindVerifier, hkept.epoch]

theorem FindRel.bindSession_eq (clientId session : Nat) (secret : Bytes) :
    t'.bindSession bindVerifier clientId session secret =
      t.bindSession bindVerifier clientId session secret := by
  unfold bindSession
  obtain ⟨hnone, hnone'⟩ | ⟨e, e', hfind, hfind', hkept⟩ := h.find clientId
  · rw [hnone, hnone']
  · simp only [hfind, hfind', hkept.userId, hkept.endedOp, hkept.epoch, h.registeredSession_eq]

theorem FindRel.checkRequest (hsafe : t.Safe) (clientId epoch request : Nat) (operation : Operation) :
    Option.Rel (ClientEntry.Forgets (lost clientId) request)
      (t.checkRequest clientId epoch request operation)
      (t'.checkRequest clientId epoch request operation) := by
  unfold ClientTable.checkRequest
  split
  · exact .none
  obtain ⟨hnone, hnone'⟩ | ⟨e, e', hfind, hfind', hkept⟩ := h.find clientId
  · rw [hnone, hnone']
    exact .some (.same _)
  · rw [hfind, hfind']
    exact .some (hkept.checkSession (hsafe clientId e hfind) epoch request operation)

end

end ClientTable

/-! ## Runs -/

namespace TableRun

/-- A committed capacity stays as it is. -/
def stepOp (s : TableRun) : TableOp → TableRun
  | .capacity _ => s
  | .commit op => s.step op

def AdmissibleOp (s : TableRun) : TableOp → Prop
  | .capacity _ => True
  | .commit op => s.Admissible op

def AdmissibleOps (s : TableRun) : List TableOp → Prop
  | [] => True
  | op :: ops => s.AdmissibleOp op ∧ AdmissibleOps (s.stepOp op) ops

def runOps (s : TableRun) (ops : List TableOp) : TableRun := ops.foldl stepOp s

def results (s : TableRun) : List TableOp → List OpResult
  | [] => []
  | op :: ops => s.result op :: results (s.stepOp op) ops

structure Restored (lost : Nat → List CachedReply) (s s' : TableRun) : Prop where
  left : Alike s s
  right : Alike s' s'
  find : ClientTable.FindRel lost s.table s'.table
  lastOp : s.lastOp = s'.lastOp
  revoking : s.revoking = s'.revoking

variable {lost : Nat → List CachedReply} {s s' : TableRun}

theorem Alike.safe (h : Alike s s) : s.table.Safe := fun _ e hfind =>
  (h.settled e (get_eq_some.mp hfind).1).protect

theorem Restored.admissible (h : Restored lost s s') {op : MetadataOp} (hop : s.Admissible op) :
    s'.Admissible op := by
  cases op <;> simp only [Admissible, ← h.lastOp, ← h.revoking] at hop ⊢ <;> exact hop

/-- **One operation** gives the same result on both tables. -/
theorem Restored.stepOp (h : Restored lost s s') {op : TableOp} (hop : s.AdmissibleOp op) :
    SameResult (s.result op) (s'.result op) ∧ Restored lost (s.stepOp op) (s'.stepOp op) := by
  cases op with
  | capacity capacity =>
    refine ⟨?_, h⟩
    have heq : (s.table.commitCapacity capacity).map (fun _ => ()) =
        (s'.table.commitCapacity capacity).map fun _ => () := by
      rw [commitCapacity, commitCapacity, h.find.count_eq, h.find.capacity]
      split <;> rfl
    rw [result, result, heq]
    exact .same _
  | commit op =>
    obtain ⟨hresult, hstep⟩ := sameStep h.find.agree h.lastOp hop
    have hleft := h.left.step hop
    have hright := h.right.step (h.admissible hop)
    refine ⟨hresult, ?_⟩
    simp only [TableRun.stepOp]
    generalize s.step op = u, s'.step op = u' at hstep hleft hright
    have hcached := h.find.cached h.left.safe h.right.safe
    cases hstep with
    | stop => exact h
    | skip => exact ⟨hleft, hright, h.find, rfl, rfl⟩
    | register _ _ hfind hfind' _ => exact ⟨hleft, hright, h.find.add hfind hfind', rfl, rfl⟩
    | cache => exact ⟨hleft, hright, hcached _, rfl, rfl⟩
    | logout =>
      exact ⟨hleft, hright, (hcached _).update _ fun _ _ _ _ hkept => hkept.endAt _, rfl, rfl⟩
    | revoke userId => exact ⟨hleft, hright, h.find.endUserSessions userId _, rfl, rfl⟩
    | forget clientId => exact ⟨hleft, hright, h.find.forgotten clientId, rfl, rfl⟩

/-- **Any number of them.** -/
theorem Restored.runOps (h : Restored lost s s') {ops : List TableOp} (hops : s.AdmissibleOps ops) :
    List.Forall₂ SameResult (s.results ops) (s'.results ops) ∧
      Restored lost (s.runOps ops) (s'.runOps ops) := by
  induction ops generalizing s s' with
  | nil => exact ⟨.nil, h⟩
  | cons op ops ih =>
    obtain ⟨hresult, hnext⟩ := h.stepOp hops.1
    obtain ⟨hresults, hrun⟩ := ih hnext hops.2
    exact ⟨.cons hresult hresults, hrun⟩

/-! ## The two forms -/

theorem alike_self (hsettled : ∀ e ∈ s.table.slots.entries, e.Settled s.lastOp s.revoking)
    (hpos : 0 < s.table.clientsMax) (hle : s.table.clientsMax ≤ clientsTableSlotMax)
    (hlen : s.table.slots.slots.length = s.table.clientsMax) : Alike s s where
  slots := by
    refine forall₂_same.mpr fun slot hslot => ?_
    cases slot with
    | none => exact .none
    | some e =>
      have he := hsettled e (reduceOption_mem_iff.mpr hslot)
      exact .some ⟨rfl, he, he⟩
  capacity := rfl
  capacity_pos := hpos
  capacity_le := hle
  length := hlen
  lastOp := rfl
  revoking := rfl

end TableRun

namespace ClientTable

theorem lt_of_mem_snapshotSlots {slot : Nat} {slots : List (Option ClientEntry)}
    {entry : Nat × ClientEntrySnapshot} (h : entry ∈ snapshotSlots slot slots) :
    entry.1 < slot + slots.length := by
  induction slots generalizing slot with
  | nil => cases h
  | cons head rest ih =>
    have hrest (h : entry ∈ snapshotSlots (slot + 1) rest) :
        entry.1 < slot + (head :: rest).length := by
      have hlt := ih h
      rw [length_cons]
      omega
    cases head with
    | none => exact hrest h
    | some e =>
      obtain rfl | h := mem_cons.mp h
      · exact Nat.lt_add_of_pos_right (Nat.succ_pos _)
      · exact hrest h

theorem restore_toSnapshot {e : ClientEntry} (h : e.Protected) :
    ∃ latest ∈ e.ring, e.toSnapshot.reply = latest.bytesOf ∧
      e.toSnapshot.restore latest = e.keepNewest 1 := by
  obtain ⟨latest, hring, -, hcommit, -⟩ := h.ring_eq
  have hmem : latest ∈ e.ring := by
    rw [hring]
    exact mem_append_right _ mem_cons_self
  refine ⟨latest, hmem, ?_, ?_⟩
  · rw [ClientEntry.toSnapshot, hring, getLast?_concat]
    rfl
  · have htake : e.ring.rtake 1 = [latest] := by
      rw [hring, rtake_concat_succ, rtake_zero, nil_append]
    rw [ClientEntrySnapshot.restore, keepNewest, htake, hcommit]
    rfl

theorem placeEntries_snapshotSlots {done todo : List (Option ClientEntry)}
    (hfits : ∀ e, some e ∈ todo → e.Fits) (hok : ∀ e, some e ∈ todo → e.Protected)
    (hunique : ((done ++ todo).reduceOption.map clientId).Nodup) :
    placeEntries (snapshotSlots done.length todo)
        (done.map (Option.map (keepNewest 1)) ++ List.replicate todo.length none) =
      .ok ((done ++ todo).map (Option.map (keepNewest 1))) := by
  induction todo generalizing done with
  | nil => rw [append_nil, length_nil, replicate_zero, append_nil]; rfl
  | cons head rest ih =>
    have hnext := @ih (done ++ [head]) (fun e he => hfits e (mem_cons_of_mem _ he))
      (fun e he => hok e (mem_cons_of_mem _ he))
      (by rwa [append_assoc, singleton_append])
    rw [length_append, length_singleton, append_assoc, singleton_append,
      map_append, append_assoc, map_singleton, singleton_append] at hnext
    rw [length_cons, replicate_succ]
    cases head with
    | none => exact hnext
    | some e =>
      have hprotect := hok e mem_cons_self
      obtain ⟨latest, hlatest, hreply, hrestore⟩ := restore_toSnapshot hprotect
      have hread : CachedReply.tryFrom e.toSnapshot.reply = .ok latest := by
        rw [hreply]
        exact CachedReply.tryFrom_bytesOf ((hfits e mem_cons_self).replies latest hlatest)
      have hvalid : (e.keepNewest 1).validMetadataProtection = true :=
        validMetadataProtection_of_protected
          (hprotect.of_suffix (drop_suffix _ _) (hprotect.rtake_ne_nil Nat.one_pos))
      -- no slot that is filled holds the client, and this one is free
      have hnew : (done.map (Option.map (keepNewest 1)) ++
          none :: List.replicate rest.length none).findIdx?
            (Option.any fun x : ClientEntry => decide (x.clientId = e.toSnapshot.clientId)) =
          none := by
        rw [findIdx?_eq_none_iff]
        intro slot hslot
        cases slot with
        | none => rfl
        | some x =>
          have hx : some x ∈ done.map (Option.map (keepNewest 1)) := by
            simpa [mem_replicate] using hslot
          obtain ⟨y, hy, hyx⟩ := mem_map.mp hx
          obtain ⟨z, rfl, rfl⟩ := Option.map_eq_some_iff.mp hyx
          rw [reduceOption_append, map_append] at hunique
          have hne := (nodup_append.mp hunique).2.2 z.clientId
            (mem_map_of_mem (reduceOption_mem_iff.mpr hy)) e.clientId
            mem_cons_self
          exact decide_eq_false hne
      have hlen : done.length = (done.map (Option.map (keepNewest 1))).length :=
        (length_map _).symm
      have hfree : (done.map (Option.map (keepNewest 1)) ++
          none :: List.replicate rest.length none)[done.length]? = some none := by
        rw [getElem?_append_right hlen.ge, ← hlen, Nat.sub_self]
        rfl
      have hset : (done.map (Option.map (keepNewest 1)) ++
          none :: List.replicate rest.length none).set done.length (some (e.keepNewest 1)) =
            done.map (Option.map (keepNewest 1)) ++
              some (e.keepNewest 1) :: List.replicate rest.length none := by
        rw [set_append_right _ _ hlen.ge, ← hlen, Nat.sub_self]
        rfl
      rw [snapshotSlots, placeEntries, hread]
      simp only [Except.mapError, bind, Except.bind, hnew, hfree, Option.join_some, Option.isSome_none,
        hrestore, hvalid, hset, Bool.false_eq_true, if_false, if_true]
      exact hnext

def checkpointed (t : ClientTable) : ClientTable :=
  ⟨t.slots.map (keepNewest 1) fun _ => rfl, t.clientsMax, .metadata⟩

/-- **Round trip of the checkpoint.** -/
theorem fromSnapshot_toSnapshot {t : ClientTable} (h : t.Transferable)
    (hlen : t.slots.slots.length = t.clientsMax) : fromSnapshot t.toSnapshot = .ok t.checkpointed := by
  have hrange : t.toSnapshot.slots.find? (t.toSnapshot.capacity ≤ ·.1) = none := by
    refine find?_eq_none.mpr fun entry hentry => ?_
    have hlt := lt_of_mem_snapshotSlots hentry
    rw [hlen, Nat.zero_add] at hlt
    exact fun hle => not_le.mpr hlt (of_decide_eq_true hle)
  have hplace := @placeEntries_snapshotSlots [] t.slots.slots
    (fun e he => h.fits e (reduceOption_mem_iff.mpr he))
    (fun e he => h.protect e (reduceOption_mem_iff.mpr he)) t.slots.unique
  rw [map_nil, nil_append, nil_append, hlen] at hplace
  have hcapacity : ¬(t.toSnapshot.capacity = 0 ∨ clientsTableSlotMax < t.toSnapshot.capacity) :=
    not_or.mpr ⟨h.capacity_pos.ne', not_lt.mpr h.capacity_le⟩
  have hslots : placeEntries t.toSnapshot.slots (List.replicate t.toSnapshot.capacity none) =
      .ok (t.slots.slots.map (Option.map (keepNewest 1))) := hplace
  rw [fromSnapshot, if_neg hcapacity, hrange]
  simp only [hslots, ok_bind]
  exact dif_pos t.checkpointed.slots.unique

end ClientTable

namespace TableRun

inductive TableForm
  | wire | checkpoint
  deriving DecidableEq

def TableForm.kept : TableForm → Nat
  | .wire => replyRingCapacity
  | .checkpoint => 1

def TableForm.restore (xxh3 : Bytes → UInt64) (t : ClientTable) : TableForm → Option ClientTable
  | .wire => (decode xxh3 (t.encode xxh3)).toOption
  | .checkpoint => (fromSnapshot t.toSnapshot).toOption

def TableForm.lost (form : TableForm) (t : ClientTable) (clientId : Nat) : List CachedReply :=
  ((t.find clientId).map (·.ring.rdrop form.kept)).getD []

variable {s : TableRun}

theorem restored_of_find (h : Alike s s) {form : TableForm} {t : ClientTable}
    (hfind : ∀ clientId, t.find clientId = (s.table.find clientId).map (·.keepNewest form.kept))
    (hmax : t.clientsMax = s.table.clientsMax) (hlen : t.slots.slots.length = t.clientsMax) :
    Restored (form.lost s.table) s ⟨t, s.lastOp, s.revoking⟩ := by
  have hkept : 0 < form.kept := by cases form <;> decide
  refine ⟨h, alike_self (fun e he => ?_) (hmax ▸ h.capacity_pos) (hmax ▸ h.capacity_le) hlen,
    ⟨fun clientId => ?_, hmax.symm⟩, rfl, rfl⟩
  · have hself : t.find e.clientId = some e := get_eq_some.mpr ⟨he, rfl⟩
    rw [hfind] at hself
    obtain ⟨x, hx, rfl⟩ := Option.map_eq_some_iff.mp hself
    exact (h.settled x (get_eq_some.mp hx).1).keepNewest hkept
  · rw [hfind, TableForm.lost]
    cases s.table.find clientId with
    | none => exact .none
    | some e => exact .some (e.kept_keepNewest form.kept)

theorem Alike.restore (h : Alike s s) (xxh3 : Bytes → UInt64) (form : TableForm) :
    ∃ t, form.restore xxh3 s.table = some t ∧
      Restored (form.lost s.table) s ⟨t, s.lastOp, s.revoking⟩ := by
  cases form with
  | wire =>
    have hdecode := decode_encode xxh3 h.transferable
    refine ⟨_, toOption_eq_some.mpr hdecode, restored_of_find h (fun clientId => ?_) rfl ?_⟩
    · rw [ClientTable.find, ClientTable.find, Slots.get, Slots.get, entries_transferred, find?_map]
      rfl
    · have hcount := h.count_le
      change (map some _ ++ List.replicate _ none).length = _
      rw [length_append, length_map, length_map, length_replicate]
      exact Nat.add_sub_cancel' hcount
  | checkpoint =>
    have hdecode := fromSnapshot_toSnapshot h.transferable h.length
    refine ⟨_, toOption_eq_some.mpr hdecode, restored_of_find h (fun clientId => ?_) rfl ?_⟩
    · exact get_map (t := s.table.slots) (f := keepNewest 1) (fun _ => rfl) clientId
    · exact (length_map _).trans h.length

/-- **A restored client table goes on as the original.** Both forms of every reachable table are
read back. After any operations on both tables the results are the same, the lists of ended sessions
in another order at most, binding queries have the same answers, and so has every request but one
whose reply the form left behind: that one is told that it was applied, or, of a session that a
Logout has ended, that there is none. -/
theorem restored_table_goes_on (xxh3 : Bytes → UInt64) (hs : s.Reachable) (form : TableForm) :
    ∃ t, form.restore xxh3 s.table = some t ∧
      ∀ ops, s.AdmissibleOps ops →
        let original := s.runOps ops
        let restored := runOps ⟨t, s.lastOp, s.revoking⟩ ops
        List.Forall₂ SameResult (s.results ops) (results ⟨t, s.lastOp, s.revoking⟩ ops) ∧
        (∀ clientId epoch request operation,
          Option.Rel (ClientEntry.Forgets (form.lost s.table clientId) request)
            (original.table.checkRequest clientId epoch request operation)
            (restored.table.checkRequest clientId epoch request operation)) ∧
        (∀ clientId userId verifier, restored.table.registeredSession clientId userId verifier =
          original.table.registeredSession clientId userId verifier) ∧
        ∀ bindVerifier clientId session secret,
          restored.table.bindSession bindVerifier clientId session secret =
            original.table.bindSession bindVerifier clientId session secret := by
  obtain ⟨t, hrestore, hrestored⟩ := hs.alike.restore xxh3 form
  refine ⟨t, hrestore, fun ops hops => ?_⟩
  obtain ⟨hresults, hrun⟩ := hrestored.runOps hops
  exact ⟨hresults, hrun.find.checkRequest hrun.left.safe, hrun.find.registeredSession_eq,
    hrun.find.bindSession_eq⟩

/-! ## Concrete tables -/

/-- Client 2's first request, at op 5. -/
def secondReply : CachedReply where
  client := 2
  request := 1
  commit := 5
  operation := .createUser
  frame := { command := .reply, size := headerSize, op := 5 }

/-- Client 3 registers with the first slot free, client 2 has a reply, and their user's sessions
end. -/
def laterOps : List TableOp :=
  [.commit (.register 3 7 (List.replicate 32 0) (registerReply 3 4)), .commit (.reply 2 7 secondReply),
    .commit (.endUserSessions 7 6), .capacity 2]

theorem admissible_laterOps : finalizedFirst.AdmissibleOps laterOps := by
  refine ⟨⟨by decide +kernel, wellFormed_registerReply (by decide) (by decide), by decide, rfl⟩,
    ⟨⟨by decide, rfl, le_rfl, le_rfl, by decide⟩, by decide, by decide, .inl ?_⟩,
    ⟨?_, by decide⟩, trivial, trivial⟩
  · decide +kernel
  · decide +kernel

/-- The ended sessions are listed in slot order, which the wire form has not kept. -/
theorem restored_lists_other_order :
    finalizedFirst.Reachable ∧ finalizedFirst.AdmissibleOps laterOps ∧
    ∃ t, TableForm.restore (fun _ => 0) finalizedFirst.table .wire = some t ∧
      results ⟨t, finalizedFirst.lastOp, finalizedFirst.revoking⟩ laterOps ≠
        finalizedFirst.results laterOps := by
  refine ⟨reachable_finalizedFirst, admissible_laterOps, finalizedFirst.table.transferred, ?_, ?_⟩
  · rw [TableForm.restore, decode_encode _ reachable_finalizedFirst.alike.transferable]
    rfl
  intro h
  have hlists := congrArg (map fun
    | OpResult.ended sessions => sessions
    | _ => []) h
  exact absurd hlists (by decide +kernel)

/-- The checkpoint of the table with one session goes on as the table. -/
theorem finalized_table_goes_on :
    ∃ t, TableForm.restore (fun _ => 0) finalizedFirst.table .checkpoint = some t ∧
      List.Forall₂ SameResult (finalizedFirst.results laterOps)
        (results ⟨t, finalizedFirst.lastOp, finalizedFirst.revoking⟩ laterOps) ∧
      ∀ userId verifier,
        (runOps ⟨t, finalizedFirst.lastOp, finalizedFirst.revoking⟩ laterOps).table.registeredSession 3
          userId verifier = (finalizedFirst.runOps laterOps).table.registeredSession 3 userId verifier := by
  obtain ⟨t, hrestore, hruns⟩ :=
    restored_table_goes_on (fun _ => 0) reachable_finalizedFirst .checkpoint
  obtain ⟨hresults, -, hsession, -⟩ := hruns laterOps admissible_laterOps
  exact ⟨t, hrestore, hresults, hsession 3⟩

end TableRun

end Iggy
