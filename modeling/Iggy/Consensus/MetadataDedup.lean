import Iggy.Consensus.ClientTable
import Mathlib.Order.Bounds.Basic
import Mathlib.Logic.Relation

/-!
# Metadata sessions answer each request at most once

Source: metadata.rs:940-1112, recovery.rs:708-825.

The metadata plane applies five writes to its table in log order: `commit_register`, `commit_reply`,
`commit_logout`, `end_user_sessions` and `finalize_session`. `SessionRun` follows one client through
them with the replies its session committed. `Logged` relates the entry to that log: the ring is a
suffix of it that never loses one of the five newest replies, and the watermark is its highest
request.
-/

namespace Iggy

open List Lib ClientTable Option

/-- What one session of a client committed, oldest reply first. -/
structure SessionLog where
  register : CachedReply
  committed : List CachedReply
  /-- The Logout that ended the session. -/
  logout : Option CachedReply

def SessionLog.replies (l : SessionLog) : List CachedReply := l.register :: l.committed

namespace ClientEntry

/-! ## The ring -/

theorem trimRing_suffix (ring : List CachedReply) : trimRing ring <:+ ring := by
  induction ring with
  | nil => exact suffix_refl _
  | cons oldest rest ih =>
    unfold trimRing
    split_ifs
    · exact ih.trans (suffix_cons oldest rest)
    · exact suffix_refl _

theorem length_trimRing (ring : List CachedReply) :
    min replyRingCapacity ring.length ≤ (trimRing ring).length := by
  induction ring with
  | nil => exact min_le_right ..
  | cons oldest rest ih =>
    unfold trimRing
    split_ifs with h
    · have hlen : replyRingCapacity ≤ rest.length := Nat.lt_succ_iff.mp h.1
      rw [min_eq_left hlen] at ih
      exact (Nat.min_le_left ..).trans ih
    · exact min_le_right ..

structure Replays (e : ClientEntry) (l : SessionLog) : Prop where
  epoch : e.epoch = l.register.commit
  register : l.register.request = registerRequestId
  increasing : l.replies.Pairwise fun x y => x.request < y.request
  watermark : IsGreatest { r | ∃ x ∈ l.replies, x.request = r } e.watermark
  ring_suffix : e.ring <:+ l.replies
  ring_floor : min replyRingCapacity l.replies.length ≤ e.ring.length

section Replays

variable {e : ClientEntry} {l : SessionLog} {x : CachedReply}

section

variable (h : e.Replays l)
include h

theorem Replays.findCached_of_mem (hx : x ∈ e.ring) : e.findCached x.request = some x := by
  have hpair := h.increasing.sublist h.ring_suffix.sublist
  unfold findCached
  generalize e.ring = ring at hx hpair
  induction ring with
  | nil => cases hx
  | cons y rest ih =>
    rw [pairwise_cons] at hpair
    rcases mem_cons.mp hx with rfl | hmem
    · simp
    · have hlt := hpair.1 x hmem
      rw [find?_cons_of_neg (by simpa using hlt.ne)]
      exact ih hmem hpair.2

theorem Replays.mem_of_findCached {request : Nat} (hx : e.findCached request = some x) :
    x ∈ l.replies ∧ x.request = request :=
  ⟨h.ring_suffix.subset (mem_of_find?_eq_some hx), by simpa using find?_some hx⟩

theorem Replays.mem_ring (hx : x ∈ l.replies.drop (l.replies.length - replyRingCapacity)) :
    x ∈ e.ring := by
  have hsuffix : l.replies.drop (l.replies.length - replyRingCapacity) <:+ e.ring := by
    refine suffix_of_suffix_length_le (drop_suffix ..) h.ring_suffix ?_
    have := h.ring_floor
    rw [length_drop]
    omega
  exact hsuffix.subset hx

theorem Replays.getLast_mem_ring (hx : l.committed.getLast? = some x) : x ∈ e.ring := by
  refine h.mem_ring ?_
  obtain ⟨init, hinit⟩ := getLast?_eq_some_iff.mp hx
  have hcap : replyRingCapacity = 5 := rfl
  rw [SessionLog.replies, hinit, ← cons_append, length_append, length_singleton,
    drop_append_of_le_length (by omega)]
  exact mem_append_right _ (mem_singleton_self x)

/-- **A new reply** above the watermark extends the log. -/
theorem Replays.cacheReply {reply : CachedReply} {logout : Option CachedReply}
    (hlt : e.watermark < reply.request) :
    (e.cacheReply reply).Replays ⟨l.register, l.committed ++ [reply], logout⟩ := by
  have hnew : e.cacheReply reply = { e.pushLatest reply with watermark := reply.request } := by
    unfold ClientEntry.cacheReply
    rw [if_neg hlt.ne']
  have hreplies : (⟨l.register, l.committed ++ [reply], logout⟩ : SessionLog).replies =
      l.replies ++ [reply] := rfl
  have hbelow : ∀ x ∈ l.replies, x.request < reply.request := fun x hx =>
    (h.watermark.2 ⟨x, hx, rfl⟩).trans_lt hlt
  rw [hnew]
  refine ⟨h.epoch, h.register, ?_, ?_, ?_, ?_⟩
  · rw [hreplies, pairwise_append]
    refine ⟨h.increasing, pairwise_singleton .., fun x hx y hy => ?_⟩
    rw [mem_singleton.mp hy]
    exact hbelow x hx
  · rw [hreplies]
    refine ⟨⟨reply, mem_append_right _ (mem_singleton_self _), rfl⟩, ?_⟩
    rintro r ⟨x, hx, rfl⟩
    rcases mem_append.mp hx with hold | hself
    · exact (hbelow x hold).le
    · rw [mem_singleton.mp hself]
  · rw [hreplies]
    refine (trimRing_suffix _).trans ?_
    obtain ⟨pre, hpre⟩ := h.ring_suffix
    exact ⟨pre, by rw [← append_assoc, hpre]⟩
  · have hlen := length_trimRing (e.ring ++ [reply])
    have hold := h.ring_floor
    rw [hreplies]
    simp only [length_append, length_singleton] at hlen ⊢
    exact le_trans (by omega) hlen

end

end Replays

end ClientEntry

/-! ## What the writes do to the table -/

/-- Entries that differ in their replies only. -/
def ClientEntry.Agree (e e' : ClientEntry) : Prop :=
  ∃ ring window, e' = { e with ring := ring, committedWindow := window }

namespace ClientTable

variable {t t' : ClientTable} {clientId userId session : Nat} {reply : CachedReply}

def RegisterOk (clientId : Nat) (reply : CachedReply) : Prop :=
  clientId ≠ 0 ∧ clientId = reply.client ∧ reply.commit ≠ 0 ∧ reply.request = registerRequestId ∧
    reply.operation = .register

theorem commitRegister_of_not_ok (h : ¬RegisterOk clientId reply) :
    t.commitRegister clientId userId bindVerifier reply = .error .invalidReply := by
  rw [commitRegister, if_pos]
  by_contra hok
  simp only [not_or, not_not] at hok
  exact h hok

theorem commitRegister_of_some (h : RegisterOk clientId reply) {e : ClientEntry}
    (hfind : t.find clientId = some e) :
    t.commitRegister clientId userId bindVerifier reply =
      if e.userId = userId ∧ e.bindVerifier = bindVerifier ∧ e.endedOp = none then .ok t
      else .error (.invalidWatermark clientId) := by
  rw [commitRegister, if_neg (by simp only [not_or, not_not]; exact h)]
  split
  next e' hfind' => rw [some.inj (hfind'.symm.trans hfind)]
  next hnone => rw [hfind] at hnone; cases hnone

theorem commitRegister_of_none (h : RegisterOk clientId reply) (hfind : t.find clientId = none) :
    t.commitRegister clientId userId bindVerifier reply =
      if t.clientsMax ≤ t.count then .error t.tooMany
      else .ok (t.add (.registered clientId userId bindVerifier reply) hfind) := by
  rw [commitRegister, if_neg (by simp only [not_or, not_not]; exact h)]
  split
  next e hfind' => rw [hfind] at hfind'; cases hfind'
  next => rfl

def cached (t : ClientTable) (reply : CachedReply) : ClientTable :=
  t.update reply.client (·.cacheReply reply) (ClientEntry.clientId_cacheReply · reply)

def ended (t : ClientTable) (reply : CachedReply) : ClientTable :=
  (t.cached reply).update reply.client (·.endAt reply.commit) (ClientEntry.clientId_endAt · _)

def forgotten (t : ClientTable) (clientId : Nat) : ClientTable :=
  { t with slots := t.slots.erase clientId }

theorem find_cached {e : ClientEntry} (hfind : t.find reply.client = some e) :
    (t.cached reply).find reply.client = some (e.cacheReply reply) := by
  rw [cached, find_update_self, hfind]
  rfl

theorem endSession_cached {e : ClientEntry} {session : Nat} (hfind : t.find reply.client = some e)
    (hmine : e.userId = userId ∧ e.epoch = session ∧ e.endedOp = none) :
    (t.cached reply).endSession reply.client userId session reply.commit = (t.ended reply, true) := by
  rw [endSession, find_cached hfind]
  simp only [ClientEntry.userId_cacheReply, ClientEntry.epoch_cacheReply,
    ClientEntry.endedOp_cacheReply, if_pos hmine]
  rfl

theorem mem_endedSessions {identity : SessionIdentity} :
    identity ∈ t.endedSessions ↔ ∃ e, t.find identity.clientId = some e ∧
      e.epoch = identity.session ∧ e.endedOp = some identity.metadataWatermark := by
  simp only [endedSessions, mem_filterMap, map_eq_some_iff, find, Slots.get_eq_some]
  constructor
  · rintro ⟨e, he, endedOp, hended, rfl⟩
    exact ⟨e, ⟨he, rfl⟩, rfl, hended⟩
  · rintro ⟨e, ⟨he, hid⟩, hepoch, hended⟩
    exact ⟨e, he, _, hended, by rw [hid, hepoch]⟩

/-- Lookups find the same sessions in both tables, up to their replies. -/
structure Agree (t t' : ClientTable) : Prop where
  find : ∀ clientId, (t.find clientId = none ∧ t'.find clientId = none) ∨
    ∃ e e', t.find clientId = some e ∧ t'.find clientId = some e' ∧ e.Agree e'
  capacity : t.clientsMax = t'.clientsMax
  count : t.count = t'.count

theorem Agree.refl (t : ClientTable) : t.Agree t := by
  refine ⟨fun clientId => ?_, rfl, rfl⟩
  cases t.find clientId with
  | none => exact .inl ⟨rfl, rfl⟩
  | some e => exact .inr ⟨e, e, rfl, rfl, e.ring, e.committedWindow, rfl⟩

/-! Each write does the same to tables that agree. -/

theorem Agree.commitRegister (h : t.Agree t') (clientId userId : Nat) (bindVerifier : Bytes)
    (reply : CachedReply) :
    (∃ error, t.commitRegister clientId userId bindVerifier reply = .error error ∧
      t'.commitRegister clientId userId bindVerifier reply = .error error) ∨
    (t.commitRegister clientId userId bindVerifier reply = .ok t ∧
      t'.commitRegister clientId userId bindVerifier reply = .ok t' ∧ t.find clientId ≠ none) ∨
    ∃ hfind hfind',
      t.commitRegister clientId userId bindVerifier reply =
        .ok (t.add (.registered clientId userId bindVerifier reply) hfind) ∧
      t'.commitRegister clientId userId bindVerifier reply =
        .ok (t'.add (.registered clientId userId bindVerifier reply) hfind') ∧
      RegisterOk clientId reply ∧ t.count < t.clientsMax := by
  by_cases hok : RegisterOk clientId reply
  swap
  · exact .inl ⟨_, commitRegister_of_not_ok hok, commitRegister_of_not_ok hok⟩
  obtain ⟨hfind, hfind'⟩ | ⟨e, _, hfind, hfind', _, _, rfl⟩ := h.find clientId
  · rw [commitRegister_of_none hok hfind, commitRegister_of_none hok hfind', tooMany, tooMany,
      ← h.capacity, ← h.count]
    split
    · exact .inl ⟨_, rfl, rfl⟩
    case isFalse hroom => exact .inr (.inr ⟨hfind, hfind', rfl, rfl, hok, not_le.mp hroom⟩)
  · rw [commitRegister_of_some hok hfind, commitRegister_of_some hok hfind', hfind]
    dsimp only
    split
    · exact .inr (.inl ⟨rfl, rfl, nofun⟩)
    · exact .inl ⟨_, rfl, rfl⟩

/-- `commit_reply` panics, refuses or caches the reply. -/
theorem Agree.commitReply (h : t.Agree t') (clientId userId : Nat) (reply : CachedReply) :
    (t.commitReply clientId userId reply = none ∧ t'.commitReply clientId userId reply = none) ∨
    (∃ outcome ≠ .cached, t.commitReply clientId userId reply = some (t, outcome) ∧
      t'.commitReply clientId userId reply = some (t', outcome)) ∨
    (clientId = reply.client ∧
      t.commitReply clientId userId reply = some (t.cached reply, .cached) ∧
      t'.commitReply clientId userId reply = some (t'.cached reply, .cached) ∧
      ∃ e, t.find reply.client = some e ∧ e.refusesReply userId reply = none) := by
  unfold ClientTable.commitReply
  split
  · exact .inl ⟨rfl, rfl⟩
  case isFalse hclient =>
  obtain rfl := not_not.mp hclient
  split
  · exact .inr (.inl ⟨.noEntry, by decide, rfl, rfl⟩)
  obtain ⟨hfind, hfind'⟩ | ⟨e, _, hfind, hfind', ring, window, rfl⟩ := h.find reply.client
  · rw [hfind, hfind']
    exact .inr (.inl ⟨.noEntry, by decide, rfl, rfl⟩)
  have hsame : ClientEntry.refusesReply { e with ring := ring, committedWindow := window } userId
      reply = e.refusesReply userId reply := rfl
  simp only [hfind, hfind', hsame]
  cases htake : e.refusesReply userId reply with
  | some outcome => exact .inr (.inl ⟨outcome, ClientEntry.refusesReply_ne_cached htake, rfl, rfl⟩)
  | none => exact .inr (.inr ⟨trivial, rfl, rfl, e, rfl, htake⟩)

theorem Agree.commitLogout (h : t.Agree t') (clientId userId session : Nat) (reply : CachedReply) :
    (t.commitLogout clientId userId session reply = none ∧
      t'.commitLogout clientId userId session reply = none) ∨
    (∃ error, t.commitLogout clientId userId session reply = some (.error error) ∧
      t'.commitLogout clientId userId session reply = some (.error error)) ∨
    (t.commitLogout clientId userId session reply = some (.ok (t, false)) ∧
      t'.commitLogout clientId userId session reply = some (.ok (t', false))) ∨
    (clientId = reply.client ∧
      t.commitLogout clientId userId session reply = some (.ok (t.ended reply, true)) ∧
      t'.commitLogout clientId userId session reply = some (.ok (t'.ended reply, true)) ∧
      ∃ e, t.find reply.client = some e ∧ e.endedOp = none ∧ e.refusesReply userId reply = none ∧
        registerRequestId < reply.request) := by
  unfold ClientTable.commitLogout
  obtain ⟨hfind, hfind'⟩ | ⟨e, _, hfind, hfind', _, _, rfl⟩ := h.find clientId
  · rw [hfind, hfind']
    exact .inr (.inr (.inl ⟨rfl, rfl⟩))
  simp only [hfind, hfind']
  split
  · exact .inr (.inr (.inl ⟨rfl, rfl⟩))
  case isFalse hlive =>
  simp only [not_or, not_and, not_not] at hlive
  obtain ⟨hepoch, huser, hended, hexpired⟩ := hlive
  have hrequest : registerRequestId < reply.request := by
    by_cases hle : reply.request ≤ e.watermark
    · rw [hexpired hle]
      decide
    · exact (Nat.zero_le _).trans_lt (not_le.mp hle)
  obtain ⟨hl, hr⟩ | ⟨outcome, hne, hl, hr⟩ | ⟨rfl, hl, hr, e', hfind₁, htake⟩ :=
    h.commitReply clientId userId reply
  · rw [hl, hr]
    exact .inl ⟨rfl, rfl⟩
  · simp only [hl, hr, if_pos hne]
    exact .inr (.inl ⟨_, rfl, rfl⟩)
  · cases hfind.symm.trans hfind₁
    have hmine := And.intro huser (And.intro hepoch hended)
    simp only [hl, hr, endSession_cached hfind hmine, endSession_cached hfind' hmine, ne_eq,
      not_true_eq_false, if_false]
    exact .inr (.inr (.inr ⟨trivial, trivial, trivial, e, hfind, hended, htake, hrequest⟩))

theorem Agree.finalizeSession (h : t.Agree t') (identity : SessionIdentity) :
    (t.finalizeSession identity = (t, false) ∧ t'.finalizeSession identity = (t', false)) ∨
    (t.finalizeSession identity = (t.forgotten identity.clientId, true) ∧
      t'.finalizeSession identity = (t'.forgotten identity.clientId, true) ∧
      ∃ e, t.find identity.clientId = some e ∧ e.endedOp ≠ none) := by
  simp only [ClientTable.finalizeSession, forgetSession, mem_endedSessions]
  obtain ⟨hfind, hfind'⟩ | ⟨e, _, hfind, hfind', _, _, rfl⟩ := h.find identity.clientId
  · simp only [hfind, hfind', ite_self]
    exact .inl ⟨trivial, trivial⟩
  simp only [hfind, hfind', some.injEq, exists_eq_left']
  split
  case isTrue hends =>
    rw [if_neg (not_not.mpr hends.1), if_neg (not_not.mpr hends.1), hends.2]
    exact .inr ⟨rfl, rfl, nofun⟩
  · exact .inl ⟨rfl, rfl⟩

end ClientTable

/-! ## Runs of the metadata plane -/

inductive MetadataOp
  | register (clientId userId : Nat) (bindVerifier : Bytes) (reply : CachedReply)
  | reply (clientId userId : Nat) (reply : CachedReply)
  | logout (clientId userId session : Nat) (reply : CachedReply)
  | endUserSessions (userId endedOp : Nat)
  | finalizeSession (identity : SessionIdentity)

/-- The table, the log of one client's session, the last commit op, and whether that op ended a
user's sessions. -/
structure SessionRun where
  table : ClientTable
  log : Option SessionLog
  lastOp : Nat
  revoking : Bool

/-- `ClientTable::new`: every slot preallocated and free. -/
def ClientTable.new (maxClients : Nat) : ClientTable where
  slots := ⟨List.replicate maxClients none, by simp [reduceOption_replicate_none]⟩
  clientsMax := maxClients
  mode := .metadata

namespace SessionRun

open ClientEntry

def start (maxClients : Nat) : SessionRun := ⟨new maxClients, none, 0, false⟩

variable (c : Nat) (s : SessionRun)

/-- One write, with what it adds to the log of client `c`. A panic or an error of the table stops
the replica. -/
def step : MetadataOp → SessionRun
  | .register clientId userId bindVerifier reply =>
    match s.table.commitRegister clientId userId bindVerifier reply with
    | .ok t =>
      { table := t, lastOp := reply.commit, revoking := false
        log := if clientId = c ∧ s.table.find c = none then some ⟨reply, [], none⟩ else s.log }
    | .error _ => s
  | .reply clientId userId reply =>
    match s.table.commitReply clientId userId reply with
    | some (t, outcome) =>
      { table := t, lastOp := reply.commit, revoking := false
        log := if clientId = c ∧ outcome = .cached then
            s.log.map fun l => { l with committed := l.committed ++ [reply] }
          else s.log }
    | none => s
  | .logout clientId userId session reply =>
    match s.table.commitLogout clientId userId session reply with
    | some (.ok (t, ended)) =>
      { table := t, lastOp := reply.commit, revoking := false
        log := if clientId = c ∧ ended then
            s.log.map fun l => { l with committed := l.committed ++ [reply], logout := some reply }
          else s.log }
    | some (.error _) => s
    | none => s
  | .endUserSessions userId endedOp =>
    { s with
      table := (s.table.endUserSessions userId endedOp).1, lastOp := endedOp, revoking := true }
  | .finalizeSession identity =>
    { s with
      table := (s.table.finalizeSession identity).1
      revoking := false
      log := if identity.clientId = c ∧ (s.table.finalizeSession identity).2 then none
        else s.log }

def Increasing (reply : CachedReply) : Prop :=
  registerRequestId < reply.request ∧
    ∀ l, s.log = some l → ∀ x ∈ l.committed, x.request < reply.request

/-- Commit ops and each client's requests only grow. A Logout goes to `commit_logout` and never to
`commit_reply`, and the op that ends a user's sessions is the one whose own reply follows it
(metadata.rs:1080-1112). -/
def Admissible : MetadataOp → Prop
  | .register _ _ _ reply => s.lastOp < reply.commit
  | .reply clientId _ reply =>
    (s.lastOp < reply.commit ∨ s.revoking = true ∧ s.lastOp = reply.commit) ∧
      reply.operation ≠ .logout ∧ (clientId = c → s.Increasing reply)
  | .logout clientId _ _ reply =>
    s.lastOp < reply.commit ∧ reply.operation = .logout ∧ (clientId = c → s.Increasing reply)
  | .endUserSessions _ endedOp => s.lastOp < endedOp
  | .finalizeSession _ => True

def Step (s s' : SessionRun) : Prop := ∃ op, s.Admissible c op ∧ s' = s.step c op

def Reaches : SessionRun → SessionRun → Prop := Relation.ReflTransGen (Step c)

inductive ClientStep (c : Nat) (s s' : SessionRun) : Prop
  | frame (hfind : s'.table.find c = s.table.find c) (hlog : s'.log = s.log)
      (hop : s.lastOp ≤ s'.lastOp) (hrev : s'.revoking = true →
        s.lastOp < s'.lastOp ∨ s.revoking = true ∧ s.lastOp = s'.lastOp)
  | register (userId : Nat) (bindVerifier : Bytes) (reply : CachedReply)
      (hnone : s.table.find c = none) (hop : s.lastOp < reply.commit)
      (hreq : reply.request = registerRequestId) (hoperation : reply.operation = .register)
      (hfind : s'.table.find c = some (registered c userId bindVerifier reply))
      (hlog : s'.log = some ⟨reply, [], none⟩) (hlast : s'.lastOp = reply.commit)
      (hrev : s'.revoking = false)
  | cache (e : ClientEntry) (userId : Nat) (reply : CachedReply) (hsome : s.table.find c = some e)
      (htake : e.refusesReply userId reply = none)
      (hop : s.lastOp < reply.commit ∨ s.revoking = true ∧ s.lastOp = reply.commit)
      (hoperation : reply.operation ≠ .logout) (hinc : s.Increasing reply)
      (hfind : s'.table.find c = some (e.cacheReply reply))
      (hlog : s'.log = s.log.map fun l => { l with committed := l.committed ++ [reply] })
      (hlast : s'.lastOp = reply.commit) (hrev : s'.revoking = false)
  | logout (e : ClientEntry) (userId : Nat) (reply : CachedReply)
      (hsome : s.table.find c = some e) (hlive : e.endedOp = none)
      (htake : e.refusesReply userId reply = none) (hop : s.lastOp < reply.commit)
      (hoperation : reply.operation = .logout) (hinc : s.Increasing reply)
      (hfind : s'.table.find c = some ((e.cacheReply reply).endAt reply.commit))
      (hlog : s'.log = s.log.map fun l =>
        { l with committed := l.committed ++ [reply], logout := some reply })
      (hlast : s'.lastOp = reply.commit) (hrev : s'.revoking = false)
  | revoke (e : ClientEntry) (endedOp : Nat) (hsome : s.table.find c = some e)
      (hlive : e.endedOp = none) (hop : s.lastOp < endedOp)
      (hfind : s'.table.find c = some (e.endAt endedOp)) (hlog : s'.log = s.log)
      (hlast : s'.lastOp = endedOp)
  | finalize (e : ClientEntry) (hsome : s.table.find c = some e) (hended : e.endedOp ≠ none)
      (hfind : s'.table.find c = none) (hlog : s'.log = none) (hlast : s'.lastOp = s.lastOp)

section Inversion

variable {c : Nat} {s : SessionRun}

theorem ClientStep.skip {s' : SessionRun} (hfind : s'.table.find c = s.table.find c)
    (hlog : s'.log = s.log) (hop : s.lastOp ≤ s'.lastOp) (hrev : s'.revoking = false) :
    ClientStep c s s' :=
  .frame hfind hlog hop fun h => absurd (hrev.symm.trans h) Bool.false_ne_true

theorem ClientStep.refl : ClientStep c s s :=
  .frame rfl rfl le_rfl fun h => .inr ⟨h, rfl⟩

variable {clientId userId : Nat} {reply : CachedReply}

theorem clientStep_register {bindVerifier : Bytes} (hop : s.lastOp < reply.commit) :
    ClientStep c s (s.step c (.register clientId userId bindVerifier reply)) := by
  rcases (ClientTable.Agree.refl s.table).commitRegister clientId userId bindVerifier reply with
    ⟨error, heq, -⟩ | ⟨heq, -, hknown⟩ | ⟨hnone, -, heq, -, hok, -⟩
  · simp only [step, heq]
    exact .refl
  · -- a known client keeps its entry
    simp only [step, heq]
    refine .skip rfl (if_neg ?_) hop.le rfl
    rintro ⟨rfl, hnone⟩
    exact hknown hnone
  · simp only [step, heq]
    by_cases hc : clientId = c
    · subst hc
      exact .register userId bindVerifier reply hnone hop hok.2.2.2.1 hok.2.2.2.2
        ((find_add _).trans (if_pos rfl)) (if_pos ⟨rfl, hnone⟩) rfl rfl
    · exact .skip ((find_add c).trans (if_neg hc)) (if_neg fun h => hc h.1) hop.le rfl

theorem clientStep_reply
    (hop : s.lastOp < reply.commit ∨ s.revoking = true ∧ s.lastOp = reply.commit)
    (hoperation : reply.operation ≠ .logout) (hinc : clientId = c → s.Increasing reply) :
    ClientStep c s (s.step c (.reply clientId userId reply)) := by
  have hle : s.lastOp ≤ reply.commit := hop.elim Nat.le_of_lt fun h => h.2.le
  rcases (ClientTable.Agree.refl s.table).commitReply clientId userId reply with
    ⟨heq, -⟩ | ⟨outcome, hout, heq, -⟩ | ⟨rfl, heq, -, e, hfind, htake⟩ <;> simp only [step, heq]
  · exact .refl
  · exact .skip rfl (if_neg fun h => hout h.2) hle rfl
  · by_cases hc : reply.client = c
    · subst hc
      exact .cache e userId reply hfind htake hop hoperation (hinc rfl) (find_cached hfind)
        (if_pos ⟨rfl, trivial⟩) rfl rfl
    · exact .skip (find_update_of_ne (Ne.symm hc)) (if_neg fun h => hc h.1) hle rfl

theorem clientStep_logout {session : Nat} (hop : s.lastOp < reply.commit)
    (hoperation : reply.operation = .logout) (hinc : clientId = c → s.Increasing reply) :
    ClientStep c s (s.step c (.logout clientId userId session reply)) := by
  rcases (ClientTable.Agree.refl s.table).commitLogout clientId userId session reply with
    ⟨heq, -⟩ | ⟨error, heq, -⟩ | ⟨heq, -⟩ | ⟨rfl, heq, -, e, hfind, hlive, htake, -⟩ <;>
    simp only [step, heq]
  · exact .refl
  · exact .refl
  · exact .skip rfl (if_neg fun h => Bool.false_ne_true h.2) hop.le rfl
  · by_cases hc : reply.client = c
    · subst hc
      refine .logout e userId reply hfind hlive htake hop hoperation (hinc rfl) ?_
        (if_pos ⟨rfl, trivial⟩) rfl rfl
      exact find_update_self.trans (by rw [find_cached hfind]; rfl)
    · have hother : (s.table.ended reply).find c = s.table.find c :=
        (find_update_of_ne (Ne.symm hc)).trans (find_update_of_ne (Ne.symm hc))
      exact .skip hother (if_neg fun h => hc h.1) hop.le rfl

theorem clientStep_endUserSessions {endedOp : Nat} (hop : s.lastOp < endedOp) :
    ClientStep c s (s.step c (.endUserSessions userId endedOp)) := by
  have hmap : (s.table.endUserSessions userId endedOp).1.find c =
      (s.table.find c).map (·.revoke userId endedOp) :=
    Slots.get_map (clientId_revoke · userId endedOp) c
  cases hfind : s.table.find c with
  | none =>
    rw [hfind] at hmap
    exact .frame (hmap.trans hfind.symm) rfl hop.le fun _ => .inl hop
  | some e =>
    rw [hfind, map_some] at hmap
    by_cases hhit : e.userId = userId ∧ e.endedOp = none
    · refine .revoke e endedOp hfind hhit.2 hop (hmap.trans ?_) rfl rfl
      rw [revoke, if_pos hhit]
    · refine .frame (hmap.trans ?_) rfl hop.le fun _ => .inl hop
      rw [revoke, if_neg hhit, hfind]

theorem clientStep_finalizeSession {identity : SessionIdentity} :
    ClientStep c s (s.step c (.finalizeSession identity)) := by
  rcases (ClientTable.Agree.refl s.table).finalizeSession identity with
    ⟨heq, -⟩ | ⟨heq, -, e, hfind, hended⟩ <;> simp only [step, heq]
  · exact .skip rfl (if_neg fun h => Bool.false_ne_true h.2) le_rfl rfl
  · by_cases hc : identity.clientId = c
    · subst hc
      exact .finalize e hfind hended ((Slots.get_erase _).trans (if_pos rfl)) (if_pos ⟨rfl, trivial⟩)
        rfl
    · exact .skip ((Slots.get_erase c).trans (if_neg (Ne.symm hc))) (if_neg fun h => hc h.1) le_rfl rfl

/-- **Every write** is one of the `ClientStep`s for each client. -/
theorem Step.clientStep {s' : SessionRun} (h : Step c s s') : ClientStep c s s' := by
  obtain ⟨op, hadm, rfl⟩ := h
  cases op with
  | register => exact clientStep_register hadm
  | reply => exact clientStep_reply hadm.1 hadm.2.1 hadm.2.2
  | logout => exact clientStep_logout hadm.1 hadm.2.1 hadm.2.2
  | endUserSessions => exact clientStep_endUserSessions hadm
  | finalizeSession => exact clientStep_finalizeSession

end Inversion

/-! ## The entry and the log agree in every run -/

/-- `e` keeps the newest replies of `l`, and the only Logout of `l` is the one that ended it. -/
structure Logged (e : ClientEntry) (l : SessionLog) (lastOp : Nat) (revoking : Bool) : Prop
    extends e.Replays l where
  epoch_le : e.epoch ≤ lastOp
  latest_le : e.latestCommit ≤ lastOp
  ended : ∀ x, l.logout = some x → e.endedOp = some x.commit ∧ l.committed.getLast? = some x ∧
    x.commit ≤ lastOp ∧ (revoking = true → x.commit < lastOp)
  logout_operation : ∀ x, l.logout = some x → x.operation = .logout
  only_logout : ∀ x ∈ l.replies, x.operation = .logout → l.logout = some x

/-- Client `c` has an entry exactly while it has a log, and they agree. -/
def Tracks : Prop :=
  match s.table.find c with
  | none => s.log = none
  | some e => ∃ l, s.log = some l ∧ Logged e l s.lastOp s.revoking

section Tracks

variable {c : Nat} {s s' : SessionRun} {e : ClientEntry} {l : SessionLog} {lastOp : Nat}
  {revoking : Bool}

theorem Tracks.logged (h : Tracks c s) (hfind : s.table.find c = some e) :
    ∃ l, s.log = some l ∧ Logged e l s.lastOp s.revoking := by
  rwa [Tracks, hfind] at h

theorem tracks_of_logged (hfind : s.table.find c = some e) (hlog : s.log = some l)
    (h : Logged e l s.lastOp s.revoking) : Tracks c s := by
  rw [Tracks, hfind]
  exact ⟨l, hlog, h⟩

theorem Logged.mono (h : Logged e l lastOp revoking) {lastOp' : Nat} {revoking' : Bool}
    (hop : lastOp ≤ lastOp')
    (hrev : revoking' = true → lastOp < lastOp' ∨ revoking = true ∧ lastOp = lastOp') :
    Logged e l lastOp' revoking' := by
  refine ⟨h.toReplays, h.epoch_le.trans hop, h.latest_le.trans hop, fun x hx => ?_,
    h.logout_operation, h.only_logout⟩
  obtain ⟨hended, hlast, hle, hlt⟩ := h.ended x hx
  refine ⟨hended, hlast, hle.trans hop, fun hr => ?_⟩
  rcases hrev hr with hlt' | ⟨hr', heq⟩
  · omega
  · exact heq ▸ hlt hr'

theorem Logged.watermark_lt (h : Logged e l lastOp revoking) {request : Nat}
    (hreg : registerRequestId < request) (hall : ∀ x ∈ l.committed, x.request < request) :
    e.watermark < request := by
  obtain ⟨x, hx, hxw⟩ := h.watermark.1
  rcases mem_cons.mp hx with rfl | hmem
  · rw [← hxw, h.register]
    exact hreg
  · rw [← hxw]
    exact hall x hmem

variable {reply : CachedReply}

theorem latestCommit_cacheReply (hlt : e.watermark < reply.request) :
    (e.cacheReply reply).latestCommit = reply.commit := by
  unfold cacheReply
  rw [if_neg hlt.ne']
  rfl

variable {userId : Nat}

theorem logged_registered {bindVerifier : Bytes} (hreq : reply.request = registerRequestId)
    (hoperation : reply.operation = .register) :
    Logged (registered c userId bindVerifier reply) ⟨reply, [], none⟩ reply.commit false := by
  refine ⟨⟨rfl, hreq, pairwise_singleton .., ?_, suffix_refl _, min_le_right ..⟩,
    le_rfl, le_rfl, fun x hx => absurd hx (by simp), fun x hx => absurd hx (by simp),
    fun x hx hlogout => ?_⟩
  · refine ⟨⟨reply, mem_singleton_self _, hreq⟩, ?_⟩
    rintro r ⟨x, hx, rfl⟩
    rw [mem_singleton.mp hx, hreq]
    rfl
  · rw [mem_singleton.mp hx, hoperation] at hlogout
    cases hlogout

section

variable (h : Logged e l lastOp revoking)
include h

theorem Logged.logout_none_of_take (htake : e.refusesReply userId reply = none)
    (hop : lastOp < reply.commit ∨ revoking = true ∧ lastOp = reply.commit) : l.logout = none := by
  by_contra hne
  obtain ⟨x, hx⟩ := ne_none_iff_exists'.mp hne
  obtain ⟨hended, -, hle, hlt⟩ := h.ended x hx
  have hlate : x.commit < reply.commit := by
    rcases hop with hop | ⟨hr, hop⟩
    · omega
    · exact hop ▸ hlt hr
  unfold refusesReply at htake
  split_ifs at htake
  simp only [hended, filter_some, decide_eq_true_eq, hlate, if_true, map_some] at htake
  cases htake

theorem Logged.cache (htake : e.refusesReply userId reply = none)
    (hop : lastOp < reply.commit ∨ revoking = true ∧ lastOp = reply.commit)
    (hoperation : reply.operation ≠ .logout) (hlt : e.watermark < reply.request) :
    Logged (e.cacheReply reply) { l with committed := l.committed ++ [reply] } reply.commit
      false := by
  have hnone := h.logout_none_of_take htake hop
  have hle : lastOp ≤ reply.commit := hop.elim Nat.le_of_lt fun hr => hr.2.le
  refine ⟨h.toReplays.cacheReply hlt, ?_, (latestCommit_cacheReply hlt).le,
    fun x hx => absurd (hnone.symm.trans hx) (by simp), h.logout_operation,
    fun x hx hlogout => ?_⟩
  · rw [epoch_cacheReply]
    exact h.epoch_le.trans hle
  · rcases mem_append.mp (show x ∈ l.replies ++ [reply] from hx) with hold | hself
    · exact h.only_logout x hold hlogout
    · rw [mem_singleton.mp hself] at hlogout
      exact absurd hlogout hoperation

theorem Logged.not_logout_of_live (hlive : e.endedOp = none) : l.logout = none := by
  by_contra hne
  obtain ⟨x, hx⟩ := ne_none_iff_exists'.mp hne
  rw [(h.ended x hx).1] at hlive
  cases hlive

end

theorem Logged.logout (h : Logged e l lastOp revoking) (hlive : e.endedOp = none)
    (hop : lastOp < reply.commit) (hoperation : reply.operation = .logout)
    (hlt : e.watermark < reply.request) :
    Logged ((e.cacheReply reply).endAt reply.commit)
      { l with committed := l.committed ++ [reply], logout := some reply } reply.commit false := by
  have hnone := h.not_logout_of_live hlive
  have hr : (e.cacheReply reply).Replays ⟨l.register, l.committed ++ [reply], some reply⟩ :=
    h.toReplays.cacheReply hlt
  refine ⟨⟨hr.epoch, hr.register, hr.increasing, hr.watermark, hr.ring_suffix, hr.ring_floor⟩,
    ?_, (latestCommit_cacheReply hlt).le, fun x hx => ?_,
    fun x hx => some.inj hx ▸ hoperation, fun x hx hlogout => ?_⟩
  · show (e.cacheReply reply).epoch ≤ reply.commit
    rw [epoch_cacheReply]
    exact h.epoch_le.trans hop.le
  · obtain rfl : reply = x := some.inj hx
    exact ⟨rfl, getLast?_concat, le_rfl, fun hr => absurd hr Bool.false_ne_true⟩
  · rcases mem_append.mp (show x ∈ l.replies ++ [reply] from hx) with hold | hself
    · exact absurd (hnone.symm.trans (h.only_logout x hold hlogout)) (by simp)
    · rw [mem_singleton.mp hself]

theorem Logged.endAt (h : Logged e l lastOp revoking) (hlive : e.endedOp = none) {endedOp : Nat}
    (hop : lastOp < endedOp) (revoking' : Bool) : Logged (e.endAt endedOp) l endedOp revoking' := by
  have hnone := h.not_logout_of_live hlive
  exact ⟨⟨h.epoch, h.register, h.increasing, h.watermark, h.ring_suffix, h.ring_floor⟩,
    h.epoch_le.trans hop.le, h.latest_le.trans hop.le,
    fun x hx => absurd (hnone.symm.trans hx) (by simp), h.logout_operation, h.only_logout⟩

/-- **One write** keeps the entry and the log in agreement. -/
theorem Tracks.step (h : Tracks c s) (hstep : ClientStep c s s') : Tracks c s' := by
  cases hstep with
  | frame hfind hlog hop hrev =>
    cases hf : s.table.find c with
    | none =>
      rw [Tracks, hf] at h
      rw [Tracks, hfind, hf]
      exact hlog.trans h
    | some e =>
      obtain ⟨l, hl, hlogged⟩ := h.logged hf
      exact tracks_of_logged (hfind.trans hf) (hlog.trans hl) (hlogged.mono hop hrev)
  | register userId bindVerifier reply hnone hop hreq hoperation hfind hlog hlast hrev =>
    refine tracks_of_logged hfind hlog ?_
    rw [hlast, hrev]
    exact logged_registered hreq hoperation
  | cache e userId reply hsome htake hop hoperation hinc hfind hlog hlast hrev =>
    obtain ⟨l, hl, hlogged⟩ := h.logged hsome
    refine tracks_of_logged hfind (hlog.trans (by rw [hl]; rfl)) ?_
    rw [hlast, hrev]
    exact hlogged.cache htake hop hoperation (hlogged.watermark_lt hinc.1 (hinc.2 l hl))
  | logout e userId reply hsome hlive htake hop hoperation hinc hfind hlog hlast hrev =>
    obtain ⟨l, hl, hlogged⟩ := h.logged hsome
    refine tracks_of_logged hfind (hlog.trans (by rw [hl]; rfl)) ?_
    rw [hlast, hrev]
    exact hlogged.logout hlive hop hoperation (hlogged.watermark_lt hinc.1 (hinc.2 l hl))
  | revoke e endedOp hsome hlive hop hfind hlog hlast =>
    obtain ⟨l, hl, hlogged⟩ := h.logged hsome
    refine tracks_of_logged hfind (hlog.trans hl) ?_
    rw [hlast]
    exact hlogged.endAt hlive hop s'.revoking
  | finalize e hsome hended hfind hlog hlast =>
    rw [Tracks, hfind]
    exact hlog

/-- **Every run** does. -/
theorem Reaches.tracks (h : Reaches c s s') (hs : Tracks c s) : Tracks c s' := by
  induction h with
  | refl => exact hs
  | tail _ hstep ih => exact ih.step hstep.clientStep

theorem tracks_start (c maxClients : Nat) : Tracks c (start maxClients) := by
  have hnone : (start maxClients).table.find c = none := by
    refine Slots.get_eq_none.mpr fun e he => ?_
    simp [Slots.entries, start, new] at he
  rw [Tracks, hnone]
  rfl

end Tracks

/-! ## Answers -/

section Answers

variable {c : Nat} {s s' : SessionRun} {e : ClientEntry} {l : SessionLog} {lastOp : Nat}
  {revoking : Bool}

theorem checkRequest_of_find {t : ClientTable} (hc : c ≠ reservedClientId)
    (hfind : t.find c = some e) (epoch request : Nat) (operation : Operation) :
    t.checkRequest c epoch request operation = some (e.checkSession epoch request operation) := by
  rw [checkRequest, if_neg hc, hfind]

theorem checkRequest_of_none {t : ClientTable} (hc : c ≠ reservedClientId)
    (hfind : t.find c = none) (epoch request : Nat) (operation : Operation) :
    t.checkRequest c epoch request operation = some .noSession := by
  rw [checkRequest, if_neg hc, hfind]

theorem checkSession_live (hlive : e.endedOp = none) (request : Nat) (operation : Operation) :
    e.checkSession e.epoch request operation =
      if e.watermark < request then .new
      else match e.findCached request with
        | some cached =>
          if cached.operation.requestOperation ≠ operation.requestOperation then
            .operationMismatch request
          else .duplicate cached
        | none => .alreadyApplied request e.watermark := by
  unfold checkSession
  rewrite [hlive, isSome_none, if_neg Bool.false_ne_true, if_neg (lt_irrefl _),
    if_neg (lt_irrefl _)]
  rfl

variable {epoch : Nat}

theorem checkSession_of_lt (hlive : e.endedOp = none) (hlt : epoch < e.epoch) (request : Nat)
    (operation : Operation) : e.checkSession epoch request operation = .fenced e.epoch epoch := by
  unfold checkSession
  rw [hlive, isSome_none, if_neg Bool.false_ne_true, if_pos hlt]

theorem checkSession_of_gt (hlive : e.endedOp = none) (hlt : e.epoch < epoch) (request : Nat)
    (operation : Operation) :
    e.checkSession epoch request operation = .epochAhead e.epoch epoch := by
  unfold checkSession
  rw [hlive, isSome_none, if_neg Bool.false_ne_true, if_neg hlt.not_gt, if_pos hlt]

theorem checkSession_ne_new (hlive : e.endedOp = none) {request : Nat}
    (hle : request ≤ e.watermark) (operation : Operation) :
    e.checkSession e.epoch request operation ≠ .new := by
  rw [checkSession_live hlive, if_neg (not_lt.mpr hle)]
  cases e.findCached request with
  | none => simp
  | some cached =>
    simp only
    split_ifs <;> simp

theorem Logged.checkSession_newest (h : Logged e l lastOp revoking) (hlive : e.endedOp = none)
    {x : CachedReply} (hx : x ∈ l.committed.drop (l.committed.length - replyRingCapacity))
    (operation : Operation) :
    e.checkSession e.epoch x.request operation =
      if x.operation.requestOperation = operation.requestOperation then .duplicate x
      else .operationMismatch x.request := by
  have hmem : x ∈ l.committed := mem_of_mem_drop hx
  have hle : x.request ≤ e.watermark := h.watermark.2 ⟨x, mem_cons_of_mem _ hmem, rfl⟩
  have hring : x ∈ e.ring := by
    refine h.mem_ring ?_
    rw [SessionLog.replies, length_cons]
    rcases Nat.lt_or_ge l.committed.length replyRingCapacity with hlt | hge
    · rw [Nat.sub_eq_zero_of_le hlt]
      exact mem_cons_of_mem _ hmem
    · rw [Nat.succ_sub hge]
      exact hx
  rw [checkSession_live hlive, if_neg (not_lt.mpr hle), h.findCached_of_mem hring]
  simp only [ne_eq, ite_not]

theorem requestOperation_eq_logout {operation : Operation} :
    Operation.logout.requestOperation = operation.requestOperation ↔ operation = .logout := by
  cases operation <;> decide

/-- What an ended session answers in its own epoch: nothing but its Logout. -/
def endedAnswer (l : SessionLog) (request : Nat) (operation : Operation) : RequestStatus :=
  match l.logout with
  | some x =>
    if request = x.request then
      if operation = .logout then .duplicate x else .operationMismatch request
    else .noSession
  | none => .noSession

theorem endedAnswer_congr {l₁ l₂ : SessionLog} (h : l₁.logout = l₂.logout) :
    endedAnswer l₁ = endedAnswer l₂ := by
  unfold endedAnswer
  rw [h]

theorem Logged.checkSession_ended (h : Logged e l lastOp revoking) (hended : e.endedOp ≠ none)
    (request : Nat) (operation : Operation) :
    e.checkSession e.epoch request operation = endedAnswer l request operation := by
  have hsome : e.endedOp.isSome = true := isSome_iff_ne_none.mpr hended
  unfold checkSession endedAnswer
  rw [if_pos hsome, if_pos rfl]
  cases hl : l.logout with
  | none =>
    cases hf : e.findCached request with
    | none => rfl
    | some cached =>
      obtain ⟨hmem, -⟩ := h.mem_of_findCached hf
      have hne : cached.operation ≠ .logout := fun hop =>
        absurd (hl.symm.trans (h.only_logout cached hmem hop)) (by simp)
      simp only [if_neg hne]
  | some x =>
    have hx : e.findCached x.request = some x :=
      h.findCached_of_mem (h.getLast_mem_ring (h.ended x hl).2.1)
    by_cases hreq : request = x.request
    · subst hreq
      have hop : x.operation = .logout := h.logout_operation x hl
      simp only [hx, hop, if_true, requestOperation_eq_logout]
    · cases hf : e.findCached request with
      | none => simp only [if_neg hreq]
      | some cached =>
        obtain ⟨hmem, hreq'⟩ := h.mem_of_findCached hf
        have hne : cached.operation ≠ .logout := fun hop => by
          cases hl.symm.trans (h.only_logout cached hmem hop)
          exact hreq hreq'.symm
        simp only [if_neg hne, if_neg hreq]

theorem checkSession_ended_of_ne (hended : e.endedOp ≠ none) (hne : epoch ≠ e.epoch) (request : Nat)
    (operation : Operation) : e.checkSession epoch request operation = .noSession := by
  have hsome : e.endedOp.isSome = true := isSome_iff_ne_none.mpr hended
  unfold checkSession
  rw [if_pos hsome, if_neg hne]

/-! ## An ended session stays ended -/

/-- The session `epoch` of client `c` ended with `logout`; any entry it has since is of a later
epoch. -/
def EndedAt (c epoch : Nat) (logout : Option CachedReply) (s : SessionRun) : Prop :=
  epoch ≤ s.lastOp ∧ ∀ e, s.table.find c = some e →
    (e.epoch = epoch ∧ e.endedOp ≠ none ∧ ∃ l, s.log = some l ∧ l.logout = logout) ∨
      epoch < e.epoch

theorem EndedAt.step {logout : Option CachedReply} (h : EndedAt c epoch logout s)
    (hstep : ClientStep c s s') : EndedAt c epoch logout s' := by
  obtain ⟨hle, hentry⟩ := h
  cases hstep with
  | frame hfind hlog hop hrev =>
    refine ⟨hle.trans hop, fun e he => ?_⟩
    rw [hlog]
    exact hentry e (hfind ▸ he)
  | register userId bindVerifier reply hnone hop hreq hoperation hfind hlog hlast hrev =>
    refine ⟨by omega, fun e he => .inr ?_⟩
    obtain rfl := some.inj (hfind.symm.trans he)
    exact hle.trans_lt hop
  | cache e userId reply hsome htake hop hoperation hinc hfind hlog hlast hrev =>
    have hle' : s.lastOp ≤ reply.commit := hop.elim Nat.le_of_lt fun hr => hr.2.le
    refine ⟨hlast ▸ hle.trans hle', fun e' he' => ?_⟩
    cases hfind.symm.trans he'
    rw [epoch_cacheReply, endedOp_cacheReply]
    refine (hentry e hsome).imp_left fun ⟨hepoch, hended, l, hl, hout⟩ => ?_
    exact ⟨hepoch, hended, { l with committed := l.committed ++ [reply] },
      by rw [hlog, hl, map_some], hout⟩
  | logout e userId reply hsome hlive htake hop hoperation hinc hfind hlog hlast hrev =>
    refine ⟨by omega, fun e' he' => .inr ?_⟩
    cases hfind.symm.trans he'
    show epoch < (e.cacheReply reply).epoch
    rw [epoch_cacheReply]
    exact (hentry e hsome).resolve_left fun hold => hold.2.1 hlive
  | revoke e endedOp hsome hlive hop hfind hlog hlast =>
    refine ⟨by omega, fun e' he' => .inr ?_⟩
    cases hfind.symm.trans he'
    exact (hentry e hsome).resolve_left fun hold => hold.2.1 hlive
  | finalize e hsome hended hfind hlog hlast =>
    exact ⟨hlast ▸ hle, fun e' he' => absurd (hfind.symm.trans he') (by simp)⟩

theorem Reaches.endedAt {logout : Option CachedReply} (h : Reaches c s s')
    (hs : EndedAt c epoch logout s) : EndedAt c epoch logout s' := by
  induction h with
  | refl => exact hs
  | tail _ hstep ih => exact ih.step hstep.clientStep

theorem Logged.commitReply_cached (h : Logged e l s.lastOp s.revoking)
    (hc : c ≠ reservedClientId) (hfind : s.table.find c = some e) (hlive : e.endedOp = none)
    {reply : CachedReply} (hclient : reply.client = c) (hop : s.lastOp ≤ reply.commit)
    (hlt : e.watermark < reply.request) :
    ∃ t, s.table.commitReply c e.userId reply = some (t, .cached) := by
  have htake : e.refusesReply e.userId reply = none := by
    unfold refusesReply
    rw [if_neg (not_not.mpr rfl), if_neg (not_lt.mpr (h.latest_le.trans hop)),
      if_neg (not_lt.mpr hlt.le), hlive]
    rfl
  unfold commitReply
  rw [if_neg (not_not.mpr hclient.symm), if_neg hc]
  simp only [hfind, htake]
  exact ⟨_, rfl⟩

/-- **A metadata session answers each request at most once.** In every state of a run from an
empty table, with `l` the log of the session a client has:

* a live session commits its owner's next reply;
* it never answers `New` at or below its highest committed request and always above it, it
  answers each of the five newest with its reply or with `OperationMismatch`, and it fences
  every other epoch;
* an ended session answers `NoSession`, but its Logout's request is answered with the Logout's
  reply, or with `OperationMismatch` for another operation. It does so for the rest of the run,
  until it is finalized, and once the client has registered again its old epoch is fenced. -/
theorem metadata_session_at_most_once (maxClients c : Nat) (hc : c ≠ reservedClientId)
    (s : SessionRun) (hs : Reaches c (start maxClients) s) :
    (s.table.find c = none → ∀ epoch request operation,
      s.table.checkRequest c epoch request operation = some .noSession) ∧
    ∀ e, s.table.find c = some e → ∃ l, s.log = some l ∧ e.epoch = l.register.commit ∧
      (e.endedOp = none →
        (∀ reply, reply.client = c → s.Admissible c (.reply c e.userId reply) →
          ∃ t, s.table.commitReply c e.userId reply = some (t, .cached)) ∧
        ∀ operation,
          (∀ request, (∃ x ∈ l.committed, request ≤ x.request) →
            s.table.checkRequest c e.epoch request operation ≠ some .new) ∧
          (∀ request, registerRequestId < request → (∀ x ∈ l.committed, x.request < request) →
            s.table.checkRequest c e.epoch request operation = some .new) ∧
          (∀ x ∈ l.committed.drop (l.committed.length - replyRingCapacity),
            s.table.checkRequest c e.epoch x.request operation = some
              (if x.operation.requestOperation = operation.requestOperation then .duplicate x
                else .operationMismatch x.request)) ∧
          ∀ epoch request,
            (epoch < e.epoch → s.table.checkRequest c epoch request operation =
              some (.fenced e.epoch epoch)) ∧
            (e.epoch < epoch → s.table.checkRequest c epoch request operation =
              some (.epochAhead e.epoch epoch))) ∧
      (e.endedOp ≠ none →
        (∀ epoch ≠ e.epoch, ∀ request operation,
          s.table.checkRequest c epoch request operation = some .noSession) ∧
        ∀ s', Reaches c s s' → ∀ request operation,
          match s'.table.find c with
          | none => s'.table.checkRequest c e.epoch request operation = some .noSession
          | some e' =>
            (e'.epoch = e.epoch ∧ s'.table.checkRequest c e.epoch request operation =
              some (endedAnswer l request operation)) ∨
            (e.epoch < e'.epoch ∧ s'.table.checkRequest c e.epoch request operation =
              some (if e'.endedOp = none then .fenced e'.epoch e.epoch else .noSession))) := by
  have htracks := hs.tracks (tracks_start c maxClients)
  refine ⟨fun hnone => checkRequest_of_none hc hnone, fun e hfind => ?_⟩
  obtain ⟨l, hl, hlogged⟩ := htracks.logged hfind
  have hcheck := checkRequest_of_find hc hfind
  refine ⟨l, hl, hlogged.epoch, fun hlive => ⟨fun reply hclient hadm => ?_, fun operation => ?_⟩,
    fun hended => ⟨fun epoch hne request operation => ?_, fun s' hs' request operation => ?_⟩⟩
  · obtain ⟨hop, -, hinc⟩ := hadm
    have hle : s.lastOp ≤ reply.commit := hop.elim Nat.le_of_lt fun h => h.2.le
    exact hlogged.commitReply_cached hc hfind hlive hclient hle
      (hlogged.watermark_lt (hinc rfl).1 ((hinc rfl).2 l hl))
  · refine ⟨fun request ⟨x, hx, hle⟩ => ?_, fun request hreg hall => ?_, fun x hx => ?_,
      fun epoch request => ⟨fun hlt => ?_, fun hlt => ?_⟩⟩
    · have hxw : x.request ≤ e.watermark :=
        hlogged.watermark.2 ⟨x, mem_cons_of_mem _ hx, rfl⟩
      rw [hcheck, ne_eq, some.injEq]
      exact checkSession_ne_new hlive (hle.trans hxw) operation
    · rw [hcheck, checkSession_live hlive, if_pos (hlogged.watermark_lt hreg hall)]
    · rw [hcheck, hlogged.checkSession_newest hlive hx]
    · rw [hcheck, checkSession_of_lt hlive hlt]
    · rw [hcheck, checkSession_of_gt hlive hlt]
  · rw [hcheck, checkSession_ended_of_ne hended hne]
  · -- the session has ended, and every later entry of the client is of a later epoch
    have hnow : EndedAt c e.epoch l.logout s := by
      refine ⟨hlogged.epoch_le, fun e₁ he₁ => .inl ?_⟩
      cases hfind.symm.trans he₁
      exact ⟨rfl, hended, l, hl, rfl⟩
    obtain ⟨-, hlater⟩ := hs'.endedAt hnow
    cases hfind' : s'.table.find c with
    | none => exact checkRequest_of_none hc hfind' ..
    | some e' =>
      have hcheck' := checkRequest_of_find hc hfind' e.epoch request operation
      rcases hlater e' hfind' with ⟨hepoch, hended', l', hl', hout⟩ | hlt
      · obtain ⟨l'', hl'', hlogged'⟩ := (hs'.tracks htracks).logged hfind'
        cases hl'.symm.trans hl''
        refine .inl ⟨hepoch, ?_⟩
        rw [hcheck', ← hepoch, hlogged'.checkSession_ended hended', endedAnswer_congr hout]
      · refine .inr ⟨hlt, ?_⟩
        by_cases hlive' : e'.endedOp = none
        · rw [hcheck', if_pos hlive', checkSession_of_lt hlive' hlt]
        · rw [hcheck', if_neg hlive', checkSession_ended_of_ne hlive' hlt.ne]

end Answers

/-- Client 1 of user 7 registers, creates a stream and logs out. -/
def loggedOut : SessionRun :=
  (((start 1).step 1 (.register 1 7 (List.replicate 32 0x5a) ⟨1, 0, 1, .register, [], {}⟩)).step 1
    (.reply 1 7 ⟨1, 1, 2, .createStream, [], {}⟩)).step 1 (.logout 1 7 1 ⟨1, 2, 3, .logout, [], {}⟩)

theorem reaches_loggedOut : Reaches 1 (start 1) loggedOut := by
  refine ((Relation.ReflTransGen.single ⟨_, ?register, rfl⟩).tail ⟨_, ?reply, rfl⟩).tail
    ⟨_, ?logout, rfl⟩
  case register => exact Nat.one_pos
  case reply =>
    exact ⟨.inl (by decide), by decide, fun _ => ⟨by decide, fun l hl => by cases hl; simp⟩⟩
  case logout => exact ⟨by decide, rfl, fun _ => ⟨by decide, fun l hl => by cases hl; simp⟩⟩

/-- The Logout's request with another operation is not `NoSession` after the end. -/
theorem logout_request_mismatches : Reaches 1 (start 1) loggedOut ∧
    (∃ e, loggedOut.table.find 1 = some e ∧ e.endedOp = some 3) ∧
    loggedOut.table.checkRequest 1 1 2 .createStream = some (.operationMismatch 2) :=
  ⟨reaches_loggedOut, ⟨_, rfl, rfl⟩, rfl⟩

theorem metadata_session_at_most_once_logged_out :
    (loggedOut.table.find 1).isSome = true ∧
      loggedOut.table.checkRequest 1 1 1 .createStream = some .noSession := by
  have hrun := metadata_session_at_most_once 1 1 (by decide) loggedOut reaches_loggedOut
  obtain ⟨l, hl, -, -, hended⟩ := hrun.2 _ rfl
  have hlast := (hended (by decide)).2 loggedOut .refl 1 .createStream
  cases hl
  rcases hlast with ⟨-, hanswer⟩ | ⟨hlt, -⟩
  · exact ⟨rfl, hanswer⟩
  · exact absurd hlt (lt_irrefl _)

end SessionRun

end Iggy
