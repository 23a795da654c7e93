import Iggy.Consensus.ClientTableWire
import Iggy.Consensus.MetadataDedup
import Mathlib.Data.List.DropRight

/-!
# A transferred client table and the one it was copied from

State transfer installs `decode(encode(t))` on a replica that fell behind (client_table.rs:543-550),
and both go on to commit the same operations. They encode the same bytes as long as their entries
stand in the same slots: `Alike` is that relation, and every operation keeps it (`Alike.step`). The
encoding does not say which slots are free, so with one below an entry the next registration takes
that slot in one table and the first slot behind the entries in the other.
-/

namespace Iggy

open List Lib ClientTable Slots

namespace ClientEntry

/-! ## One more reply -/

theorem rtake_of_suffix {l l' : List CachedReply} {n : Nat} (h : l' <:+ l)
    (hlen : min n l.length ≤ l'.length) : l'.rtake n = l.rtake n := by
  obtain ⟨init, rfl⟩ := h
  rw [length_append] at hlen
  by_cases hn : n ≤ l'.length
  · have hdrop : init.length + l'.length - n = init.length + (l'.length - n) := by omega
    rw [rtake, rtake, length_append, hdrop, ← drop_drop, drop_left]
  · have hinit : init = [] := length_eq_zero_iff.mp (by omega)
    rw [hinit, nil_append]

theorem rtake_rtake {l : List CachedReply} {m n : Nat} (h : m ≤ n) :
    (l.rtake n).rtake m = l.rtake m :=
  rtake_of_suffix (drop_suffix _ _) (by rw [rtake, length_drop]; omega)

/-- One for the same request is replaced. -/
def olderReplies (e : ClientEntry) (reply : CachedReply) : List CachedReply :=
  if reply.request = e.watermark then e.ring.dropLast else e.ring

variable {e e' : ClientEntry} {reply : CachedReply}

theorem Protected.ring_eq (h : e.Protected) :
    ∃ latest, e.ring = e.ring.dropLast ++ [latest] ∧ latest.request = e.watermark ∧
      latest.commit = e.latestCommit ∧ ∀ x ∈ e.ring.dropLast,
        x.request < e.watermark ∧ x.commit < e.latestCommit := by
  obtain ⟨init, latest, hring, hrequest, hcommit, -⟩ := h.latest
  have hinc := h.increasing
  rw [hring, pairwise_append] at hinc
  refine ⟨latest, by rw [hring, dropLast_concat], hrequest, hcommit, fun x hx => ?_⟩
  rw [hring, dropLast_concat] at hx
  rw [← hrequest, ← hcommit]
  exact hinc.2.2 x hx latest mem_cons_self

/-- A new reply takes the place of the one for the same request, or the oldest are trimmed. -/
def ringWith (e : ClientEntry) (reply : CachedReply) : List CachedReply :=
  if reply.request = e.watermark then e.ring.dropLast ++ [reply] else trimRing (e.ring ++ [reply])

theorem Protected.cacheReply_ringWith (h : e.Protected) (reply : CachedReply) :
    e.cacheReply reply =
      { e with ring := e.ringWith reply, watermark := reply.request, latestCommit := reply.commit } := by
  unfold cacheReply ringWith
  by_cases hsame : reply.request = e.watermark
  · obtain ⟨latest, hring, hrequest, -, hbelow⟩ := h.ring_eq
    rw [if_pos hsame, if_pos hsame]
    have hany : (e.ring.any fun stored => stored.request = reply.request) = true := by
      rw [hring, any_append]
      simp [hrequest, hsame]
    have hreplace : (e.ring.replaceF fun stored =>
        if stored.request = reply.request then some reply else none) =
        e.ring.dropLast ++ [reply] := by
      rw [hring, dropLast_concat]
      generalize e.ring.dropLast = init at hbelow
      induction init with
      | nil => simp [replaceF, hrequest, hsame]
      | cons x init ih =>
        have hx := (hbelow x mem_cons_self).1
        rw [cons_append, replaceF_cons, if_neg (by omega)]
        exact congrArg (x :: ·) (ih fun y hy => hbelow y (mem_cons_of_mem _ hy))
    simp only [if_pos hany, hreplace, getLast?_concat, Option.map_some, Option.getD_some]
    rw [hsame]
  · rw [if_neg hsame, if_neg hsame]
    rfl

/-- It is the last one, behind as many older ones as a transfer carries. -/
theorem Protected.cacheReply_eq (h : e.Protected) (reply : CachedReply) :
    ∃ ring, e.cacheReply reply =
        { e with ring := ring, watermark := reply.request, latestCommit := reply.commit } ∧
      ring <:+ e.olderReplies reply ++ [reply] ∧
      min replyRingCapacity (e.olderReplies reply ++ [reply]).length ≤ ring.length := by
  refine ⟨_, h.cacheReply_ringWith reply, ?_⟩
  unfold ringWith olderReplies
  split
  · exact ⟨suffix_refl _, min_le_right ..⟩
  · exact ⟨trimRing_suffix _, length_trimRing _⟩

theorem Protected.exists_ring_cacheReply (h : e.Protected) (reply : CachedReply) :
    ∃ init, (e.cacheReply reply).ring = init ++ [reply] := by
  obtain ⟨ring, heq, ⟨pre, hpre⟩, hlen⟩ := h.cacheReply_eq reply
  have hne : ring ≠ [] := by
    rintro rfl
    simp [replyRingCapacity] at hlen
  obtain ⟨init, last, rfl⟩ := (eq_nil_or_concat ring).resolve_left hne
  rw [concat_eq_append, ← append_assoc] at hpre
  rw [heq]
  exact ⟨init, by rw [concat_eq_append, (append_inj' hpre rfl).2]⟩

/-! ## What holds of every entry of a committed table -/

/-- An entry after the ops up to `lastOp`; while a revocation is being applied, its own reply is
still to come. -/
structure Settled (lastOp : Nat) (revoking : Bool) (e : ClientEntry) : Prop where
  fits : e.Fits
  protect : e.Protected
  latest_le : e.latestCommit ≤ lastOp
  latest_lt : revoking = true → e.latestCommit < lastOp
  ended_le : ∀ ended ∈ e.endedOp, ended ≤ lastOp

structure Commits (lastOp : Nat) (revoking : Bool) (reply : CachedReply) : Prop where
  wellFormed : reply.WellFormed
  request : registerRequestId < reply.request
  operation : reply.operation ≠ .register
  commit : lastOp < reply.commit ∨
    (revoking = true ∧ reply.commit = lastOp ∧ endsSession reply.operation = true)

variable {lastOp : Nat} {revoking : Bool} {revoking' : Bool}

theorem Settled.mono (h : e.Settled lastOp revoking) {lastOp' : Nat} (hle : lastOp ≤ lastOp')
    (hlt : revoking' = true → lastOp < lastOp') : e.Settled lastOp' revoking' where
  fits := h.fits
  protect := h.protect
  latest_le := h.latest_le.trans hle
  latest_lt hrevoking := h.latest_le.trans_lt (hlt hrevoking)
  ended_le ended hended := (h.ended_le ended hended).trans hle

theorem Settled.latestCommit_lt (h : e.Settled lastOp revoking)
    (hreply : Commits lastOp revoking reply) : e.latestCommit < reply.commit := by
  rcases hreply.commit with hlt | ⟨hrevoking, heq, -⟩
  · exact h.latest_le.trans_lt hlt
  · exact heq ▸ h.latest_lt hrevoking

theorem Commits.lastOp_le (h : Commits lastOp revoking reply) : lastOp ≤ reply.commit := by
  rcases h.commit with hlt | ⟨-, heq, -⟩
  · exact hlt.le
  · exact heq.ge

variable {userId : Nat}

theorem refusesReply_eq_none (h : e.refusesReply userId reply = none) :
    e.watermark ≤ reply.request ∧ ∀ ended ∈ e.endedOp, reply.commit ≤ ended := by
  unfold refusesReply at h
  split_ifs at h with _ _ hrequest
  refine ⟨not_lt.mp hrequest, fun ended hended => not_lt.mp fun hlt => ?_⟩
  rw [Option.mem_def.mp hended, Option.filter_some_pos (by simpa using hlt)] at h
  exact nomatch h

theorem Settled.olderReplies (h : e.Settled lastOp revoking)
    (hreply : Commits lastOp revoking reply)
    (hle : e.watermark ≤ reply.request) :
    (e.olderReplies reply).Sublist e.ring ∧ ∀ x ∈ e.olderReplies reply,
      x.request < reply.request ∧ x.commit < reply.commit := by
  obtain ⟨latest, hring, hrequest, hcommit, hbelow⟩ := h.protect.ring_eq
  have hlt := h.latestCommit_lt hreply
  unfold ClientEntry.olderReplies
  split_ifs with hsame
  · refine ⟨dropLast_sublist _, fun x hx => ?_⟩
    have hx' := hbelow x hx
    omega
  · refine ⟨List.Sublist.refl _, fun x hx => ?_⟩
    rw [hring] at hx
    rcases mem_append.mp hx with hx | hx
    · have hx' := hbelow x hx
      omega
    · rw [mem_singleton.mp hx]
      omega

/-- **A committed reply** keeps the entry settled. -/
theorem Settled.cacheReply (h : e.Settled lastOp revoking) (hreply : Commits lastOp revoking reply)
    (hclient : e.clientId = reply.client) (htake : e.refusesReply userId reply = none) :
    (e.cacheReply reply).Settled reply.commit false := by
  obtain ⟨hle, hended⟩ := refusesReply_eq_none htake
  obtain ⟨ring, heq, hsuffix, hlen⟩ := h.protect.cacheReply_eq reply
  obtain ⟨hsub, hbelow⟩ := h.olderReplies hreply hle
  have hlt := h.latestCommit_lt hreply
  have hrequest := hreply.wellFormed.ranges.2.2.2
  have hmem : ∀ r ∈ ring, r ∈ e.ring ∨ r = reply := fun r hr => by
    rcases mem_append.mp (hsuffix.subset hr) with hold | hnew
    · exact .inl (hsub.subset hold)
    · exact .inr (mem_singleton.mp hnew)
  -- an ended session takes only the reply of the op that ended it
  have hends : ∀ ended ∈ e.endedOp, ended = reply.commit ∧ endsSession reply.operation = true := by
    intro ended hmark
    have h1 := h.ended_le ended hmark
    have h2 := hended ended hmark
    rcases hreply.commit with hgt | ⟨-, hcommit, hop⟩
    · omega
    · exact ⟨by omega, hop⟩
  have hepoch : e.epoch ≤ e.latestCommit := by
    obtain ⟨latest, hring, -, hcommit, -⟩ := h.protect.ring_eq
    have hlatest : latest ∈ e.ring := by
      rw [hring]
      exact mem_append_right _ mem_cons_self
    exact hcommit ▸ (h.protect.receipts latest hlatest).epoch
  obtain ⟨init, hinit⟩ := h.protect.exists_ring_cacheReply reply
  rw [heq] at hinit
  rw [heq]
  refine ⟨?fits, ?protect, le_refl _, nofun, fun ended hmark => (hends ended hmark).1.le⟩
  case fits =>
    refine { h.fits with watermark := hrequest, replies := fun r hr => ?_ }
    exact (hmem r hr).elim (h.fits.replies r) fun heq => heq ▸ hreply.wellFormed
  case protect =>
    refine ⟨h.protect.clientId, h.protect.epoch, ?_, fun r hr => ?_, ?_⟩
    · exact ⟨init, reply, hinit, rfl, rfl, fun ended hmark =>
        ⟨(hends ended hmark).1.ge, fun _ => (hends ended hmark).2⟩⟩
    · rcases hmem r hr with hold | rfl
      · have hok := h.protect.receipts r hold
        exact ⟨hok.client, hok.epoch, hok.watermark.trans hle, hok.register, hok.request⟩
      · refine ⟨hclient.symm, hepoch.trans hlt.le, le_refl _, fun hzero => ?_, fun _ => hreply.operation⟩
        exact absurd hzero hreply.request.ne'
    · refine List.Pairwise.sublist hsuffix.sublist (pairwise_append.mpr
        ⟨h.protect.increasing.sublist hsub, pairwise_singleton .., fun x hx y hy => ?_⟩)
      rw [mem_singleton.mp hy]
      exact hbelow x hx

variable {endedOp : Nat}

/-- An op above the newest reply, or that of a reply that ends the session. -/
def EndsAt (e : ClientEntry) (endedOp : Nat) : Prop :=
  endedOp = e.latestCommit →
    ∀ latest, e.ring.getLast? = some latest → endsSession latest.operation = true

theorem Settled.endAt (h : e.Settled lastOp revoking) (hle : lastOp ≤ endedOp)
    (hlt : revoking' = true → lastOp < endedOp) (hpos : 0 < endedOp)
    (hfits : endedOp < 256 ^ 8) (hends : e.EndsAt endedOp) :
    (e.endAt endedOp).Settled endedOp revoking' := by
  have hmark : ∀ ended ∈ (e.endAt endedOp).endedOp, ended = endedOp := fun ended hended =>
    (Option.mem_some_iff.mp hended).symm
  have hlatest := h.latest_le.trans hle
  refine ⟨?fits, ?protect, hlatest, fun hrevoking => h.latest_le.trans_lt (hlt hrevoking),
    fun ended hended => (hmark _ hended).le⟩
  case fits =>
    refine { h.fits with endedOp := fun ended hended => ?_ }
    rw [hmark ended hended]
    exact ⟨hpos, hfits⟩
  case protect =>
    obtain ⟨init, latest, hring, hrequest, hcommit, -⟩ := h.protect.latest
    refine ⟨h.protect.clientId, h.protect.epoch, ⟨init, latest, hring, hrequest, hcommit,
      fun ended hended => ?_⟩, fun r hr => ?_, h.protect.increasing⟩
    · rw [hmark ended hended]
      exact ⟨hlatest, fun heq => hends heq latest (by rw [hring, getLast?_concat])⟩
    · have hok := h.protect.receipts r hr
      exact ⟨hok.client, hok.epoch, hok.watermark, hok.register, hok.request⟩

theorem settled_registered {clientId : Nat} {bindVerifier : Bytes} (hreply : reply.WellFormed)
    (hzero : clientId ≠ 0) (hclient : clientId = reply.client) (hcommit : reply.commit ≠ 0)
    (hrequest : reply.request = registerRequestId) (hoperation : reply.operation = .register)
    (huser : userId < 256 ^ 4) (hverifier : bindVerifier.length = 32) :
    (registered clientId userId bindVerifier reply).Settled reply.commit false := by
  obtain ⟨-, hid, hop, -⟩ := hreply.ranges
  refine ⟨⟨hclient ▸ hid, hop, huser, (by decide : registerRequestId < 256 ^ 8), hverifier, nofun, fun r hr => ?_⟩,
    ⟨hzero, hcommit, ⟨[], reply, rfl, hrequest, rfl, nofun⟩, fun r hr => ?_,
      pairwise_singleton ..⟩, le_refl _, nofun, nofun⟩
  · rwa [mem_singleton.mp hr]
  · rw [mem_singleton.mp hr]
    exact ⟨hclient.symm, le_refl _, hrequest.le, fun _ => ⟨hoperation, rfl⟩,
      fun hne => absurd hrequest hne⟩

/-! ## Entries that encode alike -/

/-- What a transfer carries of the entry is the same. -/
structure Same (lastOp : Nat) (revoking : Bool) (e e' : ClientEntry) : Prop where
  transferred : e.transferred = e'.transferred
  left : e.Settled lastOp revoking
  right : e'.Settled lastOp revoking

theorem transferred_eq_iff : e.transferred = e'.transferred ↔
    e.bindVerifier = e'.bindVerifier ∧ e.endedOp = e'.endedOp ∧ e.epoch = e'.epoch ∧
      e.userId = e'.userId ∧ e.watermark = e'.watermark ∧
      e.ring.rtake replyRingCapacity = e'.ring.rtake replyRingCapacity ∧
      e.clientId = e'.clientId ∧ e.latestCommit = e'.latestCommit := by
  simp only [ClientEntry.transferred, ClientEntry.mk.injEq, true_and]
  rfl

theorem encode_eq_of_transferred (h : e.transferred = e'.transferred) : e.encode = e'.encode := by
  obtain ⟨hverifier, hended, hepoch, huser, hwatermark, hring, hclient, -⟩ :=
    transferred_eq_iff.mp h
  have hreplies : e.transferableReplies = e'.transferableReplies := hring
  simp only [encode, hverifier, hended, hepoch, huser, hwatermark, hreplies, hclient]

theorem transferred_transferred (e : ClientEntry) : e.transferred.transferred = e.transferred := by
  rw [transferred_eq_iff]
  exact ⟨rfl, rfl, rfl, rfl, rfl, rtake_rtake (le_refl _), rfl, rfl⟩

theorem Settled.transferred
    (h : e.Settled lastOp revoking) : e.transferred.Settled lastOp revoking :=
  ⟨{ h.fits with
      replies := fun r hr => h.fits.replies r (e.transferableReplies_suffix.subset hr) },
    h.protect.transferred, h.latest_le, h.latest_lt, h.ended_le⟩

section

variable (h : Same lastOp revoking e e')
include h

theorem Same.mono {lastOp' : Nat} (hle : lastOp ≤ lastOp')
    (hlt : revoking' = true → lastOp < lastOp') : Same lastOp' revoking' e e' :=
  ⟨h.transferred, h.left.mono hle hlt, h.right.mono hle hlt⟩

theorem Same.agree : e.Agree e' := by
  obtain ⟨hverifier, hended, hepoch, huser, hwatermark, -, hid, hlatest⟩ :=
    transferred_eq_iff.mp h.transferred
  refine ⟨e'.ring, e'.committedWindow, ?_⟩
  rw [hverifier, hended, hepoch, huser, hwatermark, hid, hlatest]

theorem Same.clientId_eq : e.clientId = e'.clientId := by
  obtain ⟨ring, window, rfl⟩ := h.agree
  rfl

/-- With the new reply they are the five that a transfer carries. -/
theorem Same.rtake_olderReplies (reply : CachedReply) :
    (e.olderReplies reply).rtake 4 = (e'.olderReplies reply).rtake 4 := by
  obtain ⟨-, -, -, -, hwatermark, hring, -, -⟩ := transferred_eq_iff.mp h.transferred
  unfold ClientEntry.olderReplies
  rw [hwatermark]
  split_ifs with hsame
  · obtain ⟨latest, heq, -⟩ := h.left.protect.ring_eq
    obtain ⟨latest', heq', -⟩ := h.right.protect.ring_eq
    rw [heq, heq', replyRingCapacity, rtake_concat_succ, rtake_concat_succ] at hring
    exact (append_inj' hring rfl).1
  · rw [← @rtake_rtake e.ring 4 replyRingCapacity (by decide), hring, rtake_rtake (by decide)]

theorem Same.cacheReply (hreply : Commits lastOp revoking reply)
    (hclient : e.clientId = reply.client) (htake : e.refusesReply userId reply = none) :
    Same reply.commit false (e.cacheReply reply) (e'.cacheReply reply) := by
  obtain ⟨_, _, rfl⟩ := h.agree
  refine ⟨?_, h.left.cacheReply hreply hclient htake, h.right.cacheReply hreply hclient htake⟩
  obtain ⟨ring, heq, hsuffix, hlen⟩ := h.left.protect.cacheReply_eq reply
  obtain ⟨ring', heq', hsuffix', hlen'⟩ := h.right.protect.cacheReply_eq reply
  rw [heq, heq', transferred_eq_iff]
  refine ⟨rfl, rfl, rfl, rfl, rfl, ?_, rfl, rfl⟩
  rw [rtake_of_suffix hsuffix hlen, rtake_of_suffix hsuffix' hlen', replyRingCapacity,
    rtake_concat_succ, rtake_concat_succ, h.rtake_olderReplies]

theorem Same.endAt (hle : lastOp ≤ endedOp) (hlt : revoking' = true → lastOp < endedOp)
    (hpos : 0 < endedOp) (hfits : endedOp < 256 ^ 8) (hends : e.EndsAt endedOp)
    (hends' : e'.EndsAt endedOp) :
    Same endedOp revoking' (e.endAt endedOp) (e'.endAt endedOp) := by
  obtain ⟨-, -, -, -, -, hring, -⟩ := transferred_eq_iff.mp h.transferred
  obtain ⟨_, _, rfl⟩ := h.agree
  exact ⟨transferred_eq_iff.mpr ⟨rfl, rfl, rfl, rfl, rfl, hring, rfl, rfl⟩,
    h.left.endAt hle hlt hpos hfits hends, h.right.endAt hle hlt hpos hfits hends'⟩

theorem Same.revoke (hlt : lastOp < endedOp) (hfits : endedOp < 256 ^ 8) (userId : Nat) :
    Same endedOp true (e.revoke userId endedOp) (e'.revoke userId endedOp) := by
  obtain ⟨_, _, rfl⟩ := h.agree
  simp only [ClientEntry.revoke]
  split_ifs
  · -- the markers lie above every reply
    have habove : ∀ {x : ClientEntry}, x.Settled lastOp revoking → endedOp ≠ x.latestCommit :=
      fun hx => (hx.latest_le.trans_lt hlt).ne'
    exact h.endAt hlt.le (fun _ => hlt) (Nat.zero_lt_of_lt hlt) hfits
      (fun heq => absurd heq (habove h.left)) fun heq => absurd heq (habove h.right)
  · exact h.mono hlt.le fun _ => hlt

end

end ClientEntry

/-! ## Runs -/

namespace ClientTable

variable {t : ClientTable} {clientId userId : Nat} {bindVerifier : Bytes} {reply : CachedReply}

/-- A table whose capacity is committed. -/
def commitCapacity (t : ClientTable) (capacity : Nat) : Except ClientTableWireError ClientTable :=
  if capacity = 0 ∨ clientsTableSlotMax < capacity ∨ capacity < t.count ∨ t.clientsMax ≠ capacity then
    .error (.invalidCapacity capacity)
  else .ok t

theorem mem_endUserSessions {userId endedOp : Nat} {identity : SessionIdentity} :
    identity ∈ (t.endUserSessions userId endedOp).2 ↔
      ∃ e, t.find identity.clientId = some e ∧ e.userId = userId ∧ e.endedOp = none ∧
        identity = ⟨e.clientId, e.epoch, endedOp⟩ := by
  simp only [endUserSessions, mem_map, mem_filter, decide_eq_true_eq, find, get_eq_some]
  constructor
  · rintro ⟨e, ⟨he, huser, hended⟩, rfl⟩
    exact ⟨e, ⟨he, rfl⟩, huser, hended, rfl⟩
  · rintro ⟨e, ⟨he, -⟩, huser, hended, heq⟩
    exact ⟨e, ⟨he, huser, hended⟩, heq.symm⟩

theorem nodup_endUserSessions (t : ClientTable) (userId endedOp : Nat) :
    (t.endUserSessions userId endedOp).2.Nodup := by
  refine List.Nodup.of_map SessionIdentity.clientId ?_
  rw [endUserSessions, map_map]
  exact t.slots.unique.sublist (filter_sublist.map _)

end ClientTable

inductive TableOp
  | capacity (capacity : Nat)
  | commit (op : MetadataOp)

/-- `none` is a panic. -/
inductive OpResult
  | applied (result : Except ClientTableWireError Unit)
  | reply (outcome : Option CommitReply)
  | logout (result : Option (Except ClientTableWireError Bool))
  | ended (sessions : List SessionIdentity)
  | finalized (forgotten : Bool)

inductive SameResult : OpResult → OpResult → Prop
  | same (result : OpResult) : SameResult result result
  | ended {sessions sessions' : List SessionIdentity} (h : sessions.Perm sessions') :
      SameResult (.ended sessions) (.ended sessions')

/-- The last op committed to the table, and whether it ended a user's sessions and has its own reply
to come. -/
structure TableRun where
  table : ClientTable
  lastOp : Nat
  revoking : Bool

namespace TableRun

open ClientEntry ClientTable

/-- A table whose capacity the log has fixed, before the first session. -/
def start (capacity : Nat) : TableRun := ⟨.new capacity, 0, false⟩

variable (s : TableRun)

/-- A panic or an error of the table stops the replica, so the run stays where it was. -/
def step : MetadataOp → TableRun
  | .register clientId userId bindVerifier reply =>
    match s.table.commitRegister clientId userId bindVerifier reply with
    | .ok table => ⟨table, reply.commit, false⟩
    | .error _ => s
  | .reply clientId userId reply =>
    match s.table.commitReply clientId userId reply with
    | some (table, _) => ⟨table, reply.commit, false⟩
    | none => s
  | .logout clientId userId session reply =>
    match s.table.commitLogout clientId userId session reply with
    | some (.ok (table, _)) => ⟨table, reply.commit, false⟩
    | some (.error _) => s
    | none => s
  | .endUserSessions userId endedOp =>
    ⟨(s.table.endUserSessions userId endedOp).1, endedOp, true⟩
  | .finalizeSession identity => ⟨(s.table.finalizeSession identity).1, s.lastOp, false⟩

def result : TableOp → OpResult
  | .capacity capacity => .applied ((s.table.commitCapacity capacity).map fun _ => ())
  | .commit (.register clientId userId bindVerifier reply) =>
    .applied ((s.table.commitRegister clientId userId bindVerifier reply).map fun _ => ())
  | .commit (.reply clientId userId reply) =>
    .reply ((s.table.commitReply clientId userId reply).map Prod.snd)
  | .commit (.logout clientId userId session reply) =>
    .logout ((s.table.commitLogout clientId userId session reply).map (·.map Prod.snd))
  | .commit (.endUserSessions userId endedOp) => .ended (s.table.endUserSessions userId endedOp).2
  | .commit (.finalizeSession identity) => .finalized (s.table.finalizeSession identity).2

/-- What the commit path sends to the table after `lastOp` (metadata.rs:940-1112): messages of the
reply type, ops in log order, requests above 0 for all but registrations. The op that ends a user's
sessions is an `UpdateUserResolved` or a `DeleteUser` (user.rs:708, 735), and its own reply
follows. -/
def Admissible : MetadataOp → Prop
  | .register _ userId bindVerifier reply =>
    s.lastOp < reply.commit ∧ reply.WellFormed ∧ userId < 256 ^ 4 ∧ bindVerifier.length = 32
  | .reply _ _ reply => Commits s.lastOp s.revoking reply
  | .logout _ _ _ reply => s.lastOp < reply.commit ∧ reply.WellFormed ∧ reply.operation = .logout
  | .endUserSessions _ endedOp => s.lastOp < endedOp ∧ endedOp < 256 ^ 8
  | .finalizeSession _ => True

def run (ops : List MetadataOp) : TableRun := ops.foldl step s

def AdmissibleRun (s : TableRun) : List MetadataOp → Prop
  | [] => True
  | op :: ops => s.Admissible op ∧ AdmissibleRun (s.step op) ops

def Reachable : Prop :=
  ∃ capacity ops, 0 < capacity ∧ capacity ≤ clientsTableSlotMax ∧
    (start capacity).AdmissibleRun ops ∧ s = (start capacity).run ops

/-! ## One operation on two replicas -/

inductive SameStep (s s' : TableRun) : TableRun → TableRun → Prop
  | stop : SameStep s s' s s'
  | skip {op : Nat} (hop : s.lastOp ≤ op) : SameStep s s' ⟨s.table, op, false⟩ ⟨s'.table, op, false⟩
  | register {e : ClientEntry} {op : Nat} (hop : s.lastOp ≤ op) (hnew : e.Settled op false)
      (hfind : s.table.find e.clientId = none) (hfind' : s'.table.find e.clientId = none)
      (hroom : s.table.count < s.table.clientsMax) :
      SameStep s s' ⟨s.table.add e hfind, op, false⟩ ⟨s'.table.add e hfind', op, false⟩
  | cache {e : ClientEntry} {userId : Nat} {reply : CachedReply}
      (hreply : Commits s.lastOp s.revoking reply)
      (hfind : s.table.find reply.client = some e) (htake : e.refusesReply userId reply = none) :
      SameStep s s' ⟨s.table.cached reply, reply.commit, false⟩
        ⟨s'.table.cached reply, reply.commit, false⟩
  | logout {e : ClientEntry} {userId : Nat} {reply : CachedReply}
      (hop : s.lastOp < reply.commit) (hreply : Commits s.lastOp s.revoking reply)
      (hlogout : reply.operation = .logout) (hfind : s.table.find reply.client = some e)
      (htake : e.refusesReply userId reply = none) :
      SameStep s s' ⟨s.table.ended reply, reply.commit, false⟩
        ⟨s'.table.ended reply, reply.commit, false⟩
  | revoke (userId : Nat) {endedOp : Nat} (hop : s.lastOp < endedOp) (hfits : endedOp < 256 ^ 8) :
      SameStep s s' ⟨(s.table.endUserSessions userId endedOp).1, endedOp, true⟩
        ⟨(s'.table.endUserSessions userId endedOp).1, endedOp, true⟩
  | forget (clientId : Nat) : SameStep s s' ⟨s.table.forgotten clientId, s.lastOp, false⟩
      ⟨s'.table.forgotten clientId, s.lastOp, false⟩

/-- **One committed operation** on replicas whose lookups agree. -/
theorem sameStep {s s' : TableRun} (h : s.table.Agree s'.table) (hlast : s.lastOp = s'.lastOp)
    {op : MetadataOp} (hop : s.Admissible op) :
    SameResult (s.result (.commit op)) (s'.result (.commit op)) ∧
      SameStep s s' (s.step op) (s'.step op) := by
  cases op with
  | register clientId userId bindVerifier reply =>
    obtain ⟨hcommit, hreply, huser, hverifier⟩ := hop
    simp only [result, step]
    obtain ⟨error, hl, hr⟩ | ⟨hl, hr, -⟩ | ⟨hfind, hfind', hl, hr, hok, hroom⟩ :=
      h.commitRegister clientId userId bindVerifier reply
    · rw [hl, hr]
      exact ⟨.same _, .stop⟩
    · rw [hl, hr]
      exact ⟨.same _, .skip hcommit.le⟩
    · obtain ⟨hzero, hclient, hne, hrequest, hoperation⟩ := hok
      rw [hl, hr]
      exact ⟨.same _, .register hcommit.le (settled_registered hreply hzero hclient hne
        hrequest hoperation huser hverifier) hfind hfind' hroom⟩
  | reply clientId userId reply =>
    simp only [result, step]
    obtain ⟨hl, hr⟩ | ⟨outcome, -, hl, hr⟩ | ⟨-, hl, hr, e, hfind, htake⟩ :=
      h.commitReply clientId userId reply <;> rw [hl, hr]
    · exact ⟨.same _, .stop⟩
    · exact ⟨.same _, .skip hop.lastOp_le⟩
    · exact ⟨.same _, .cache hop hfind htake⟩
  | logout clientId userId session reply =>
    obtain ⟨hcommit, hwell, hlogout⟩ := hop
    simp only [result, step]
    obtain ⟨hl, hr⟩ | ⟨error, hl, hr⟩ | ⟨hl, hr⟩ | ⟨-, hl, hr, e, hfind, -, htake, hrequest⟩ :=
      h.commitLogout clientId userId session reply <;> rw [hl, hr]
    · exact ⟨.same _, .stop⟩
    · exact ⟨.same _, .stop⟩
    · exact ⟨.same _, .skip hcommit.le⟩
    · exact ⟨.same _, .logout hcommit ⟨hwell, hrequest, by rw [hlogout]; decide, .inl hcommit⟩ hlogout
        hfind htake⟩
  | endUserSessions userId endedOp =>
    refine ⟨.ended ((perm_ext_iff_of_nodup (nodup_endUserSessions ..)
      (nodup_endUserSessions ..)).mpr fun identity => ?_), .revoke userId hop.1 hop.2⟩
    rw [mem_endUserSessions, mem_endUserSessions]
    obtain ⟨hfind, hfind'⟩ | ⟨e, _, hfind, hfind', ring, window, rfl⟩ := h.find identity.clientId
    · rw [hfind, hfind']
    · simp only [hfind, hfind', Option.some.injEq, exists_eq_left']
  | finalizeSession identity =>
    simp only [result, step, ← hlast]
    obtain ⟨hl, hr⟩ | ⟨hl, hr, -⟩ := h.finalizeSession identity <;> rw [hl, hr]
    · exact ⟨.same _, .skip le_rfl⟩
    · exact ⟨.same _, .forget identity.clientId⟩

/-! ## Replicas that encode alike -/

/-- Two replicas with the same entries in the same slots. -/
structure Alike (s s' : TableRun) : Prop where
  slots : s.table.slots.Rel (Same s.lastOp s.revoking) s'.table.slots
  capacity : s.table.clientsMax = s'.table.clientsMax
  capacity_pos : 0 < s.table.clientsMax
  capacity_le : s.table.clientsMax ≤ clientsTableSlotMax
  length : s.table.slots.slots.length = s.table.clientsMax
  lastOp : s.lastOp = s'.lastOp
  revoking : s.revoking = s'.revoking

section Alike

variable {s s' : TableRun}

theorem same_clientId {lastOp : Nat} {revoking : Bool} (e e' : ClientEntry)
    (h : Same lastOp revoking e e') : e.clientId = e'.clientId := h.clientId_eq

theorem Alike.find (h : Alike s s') (clientId : Nat) :
    (s.table.find clientId = none ∧ s'.table.find clientId = none) ∨
      ∃ e e', s.table.find clientId = some e ∧ s'.table.find clientId = some e' ∧
        Same s.lastOp s.revoking e e' :=
  rel_cases (Slots.Rel.get same_clientId h.slots clientId)

theorem Alike.count (h : Alike s s') : s.table.count = s'.table.count := h.slots.length_entries

theorem Alike.agree (h : Alike s s') : s.table.Agree s'.table :=
  ⟨fun clientId => (h.find clientId).imp_right fun ⟨e, e', hfind, hfind', hsame⟩ =>
    ⟨e, e', hfind, hfind', hsame.agree⟩, h.capacity, h.count⟩

variable {t : ClientTable}

theorem Alike.write (h : Alike s s') {t' : ClientTable} {lastOp : Nat} {revoking : Bool}
    (hslots : t.slots.Rel (Same lastOp revoking) t'.slots)
    (hlen : t.slots.slots.length = s.table.slots.slots.length)
    (hmax : t.clientsMax = s.table.clientsMax) (hmax' : t'.clientsMax = s'.table.clientsMax) :
    Alike ⟨t, lastOp, revoking⟩ ⟨t', lastOp, revoking⟩ where
  slots := hslots
  capacity := hmax.trans (h.capacity.trans hmax'.symm)
  capacity_pos := hmax ▸ h.capacity_pos
  capacity_le := hmax ▸ h.capacity_le
  length := hlen.trans (h.length.trans hmax.symm)
  lastOp := rfl
  revoking := rfl

theorem Alike.skip (h : Alike s s') {op : Nat} (hop : s.lastOp ≤ op) :
    Alike ⟨s.table, op, false⟩ ⟨s'.table, op, false⟩ :=
  h.write (h.slots.mono fun _ _ hsame => hsame.mono hop nofun) rfl rfl rfl

variable {clientId userId : Nat}

theorem Alike.update (h : Alike s s') {e : ClientEntry} {op : Nat} {f : ClientEntry → ClientEntry}
    {hf : ∀ e, (f e).clientId = e.clientId} (hfind : s.table.find clientId = some e)
    (hop : s.lastOp ≤ op) (hsame : ∀ e', s'.table.find clientId = some e' →
      Same s.lastOp s.revoking e e' → Same op false (f e) (f e')) :
    Alike ⟨s.table.update clientId f hf, op, false⟩ ⟨s'.table.update clientId f hf, op, false⟩ := by
  obtain ⟨hnone, -⟩ | ⟨e₁, e', hfind₁, hfind', hrel⟩ := h.find clientId
  · exact nomatch hnone.symm.trans hfind
  cases hfind₁.symm.trans hfind
  exact h.write (Slots.Rel.modify same_clientId h.slots hfind hfind' hf hf (hsame e' hfind' hrel)
    fun _ _ hab => hab.mono hop nofun) (length_map _) rfl rfl

theorem Alike.cache (h : Alike s s') {reply : CachedReply} {e : ClientEntry}
    (hreply : Commits s.lastOp s.revoking reply)
    (hfind : s.table.find reply.client = some e) (htake : e.refusesReply userId reply = none) :
    Alike ⟨s.table.cached reply, reply.commit, false⟩ ⟨s'.table.cached reply, reply.commit, false⟩ :=
  h.update hfind hreply.lastOp_le fun _ _ hsame =>
    hsame.cacheReply hreply (clientId_of_find hfind) htake

theorem endsSession_cacheReply {e : ClientEntry} {reply latest : CachedReply} (h : e.Protected)
    (hlogout : reply.operation = .logout)
    (hlatest : (e.cacheReply reply).ring.getLast? = some latest) :
    endsSession latest.operation = true := by
  obtain ⟨init, hinit⟩ := h.exists_ring_cacheReply reply
  rw [hinit, getLast?_concat] at hlatest
  rw [← Option.some.inj hlatest, hlogout]
  rfl

/-- **One committed operation** keeps the replicas alike. -/
theorem Alike.step (h : Alike s s') {op : MetadataOp} (hop : s.Admissible op) :
    Alike (s.step op) (s'.step op) := by
  obtain ⟨-, hstep⟩ := sameStep h.agree h.lastOp hop
  generalize s.step op = u, s'.step op = u' at hstep
  cases hstep with
  | stop => exact h
  | skip hop => exact h.skip hop
  | register hop hnew hfind hfind' hroom =>
    have hfree : none ∈ s.table.slots.slots := by
      refine reduceOption_length_lt_iff.mp ?_
      rw [h.length]
      exact hroom
    exact h.write ((h.skip hop).slots.insert ⟨rfl, hnew, hnew⟩ hfind hfind')
      (length_fill hfree _) rfl rfl
  | cache hreply hfind htake => exact h.cache hreply hfind htake
  | @logout e _ reply hop hreply hlogout hfind htake =>
    obtain ⟨hnone, -⟩ | ⟨e₁, e', hfind₁, hfind', hsame⟩ := h.find reply.client
    · exact nomatch hnone.symm.trans hfind
    cases hfind₁.symm.trans hfind
    refine (h.cache hreply hfind htake).update (find_cached hfind) le_rfl
      fun x hx hcached => hcached.endAt le_rfl nofun (Nat.zero_lt_of_lt hop)
        hreply.wellFormed.ranges.2.2.1
        (fun _ _ => endsSession_cacheReply hsame.left.protect hlogout) fun _ _ => ?_
    rw [find_cached hfind'] at hx
    cases hx
    exact endsSession_cacheReply hsame.right.protect hlogout
  | revoke userId hop hfits =>
    exact h.write (h.slots.map (clientId_revoke · userId _)
      (clientId_revoke · userId _) fun _ _ hsame => hsame.revoke hop hfits userId)
      (length_map _) rfl rfl
  | forget clientId =>
    exact h.write (Slots.Rel.erase same_clientId (h.skip le_rfl).slots clientId) (length_map _) rfl rfl

/-- **Any number of them.** -/
theorem Alike.run (h : Alike s s') {ops : List MetadataOp} (hops : s.AdmissibleRun ops) :
    Alike (s.run ops) (s'.run ops) := by
  induction ops generalizing s s' with
  | nil => exact h
  | cons op ops ih => exact ih (h.step hops.1) hops.2

/-! ## Encodings -/

theorem flatMap_encode_eq {entries entries' : List ClientEntry}
    (h : entries.map ClientEntry.transferred = entries'.map ClientEntry.transferred) :
    entries.flatMap ClientEntry.encode = entries'.flatMap ClientEntry.encode := by
  induction entries generalizing entries' with
  | nil =>
    rw [map_nil, eq_comm, map_eq_nil_iff] at h
    rw [h]
  | cons e entries ih =>
    cases entries' with
    | nil => exact nomatch h
    | cons e' entries' =>
      rw [map_cons, map_cons, cons.injEq] at h
      rw [flatMap_cons, flatMap_cons, encode_eq_of_transferred h.1, ih h.2]

theorem Alike.encode_eq (h : Alike s s') (xxh3 : Bytes → UInt64) :
    s.table.encode xxh3 = s'.table.encode xxh3 := by
  have hentries : s.table.slots.entries.map ClientEntry.transferred =
      s'.table.slots.entries.map ClientEntry.transferred := by
    have hrel := h.slots.entries
    generalize s.table.slots.entries = l, s'.table.slots.entries = l' at hrel
    induction hrel with
    | nil => rfl
    | cons hsame _ ih => rw [map_cons, map_cons, hsame.transferred, ih]
  have hcontent : s.table.content = s'.table.content := by
    rw [ClientTable.content, ClientTable.content, h.capacity, h.count, flatMap_encode_eq hentries]
  rw [ClientTable.encode, ClientTable.encode, hcontent]

theorem alike_start {capacity : Nat} (hpos : 0 < capacity) (hle : capacity ≤ clientsTableSlotMax) :
    Alike (start capacity) (start capacity) where
  slots := by
    have hfree : ∀ n, List.Forall₂ (Option.Rel (Same 0 false))
        (List.replicate n none) (List.replicate n none) := fun n => by
      induction n with
      | zero => exact .nil
      | succ n ih => exact .cons .none ih
    exact hfree capacity
  capacity := rfl
  capacity_pos := hpos
  capacity_le := hle
  length := length_replicate
  lastOp := rfl
  revoking := rfl

/-- This is its invariant. -/
theorem Reachable.alike (h : s.Reachable) : Alike s s := by
  obtain ⟨capacity, ops, hpos, hle, hops, rfl⟩ := h
  exact (alike_start hpos hle).run hops

theorem Alike.settled (h : Alike s s) :
    ∀ e ∈ s.table.slots.entries, e.Settled s.lastOp s.revoking := by
  have hrel := h.slots.entries
  generalize s.table.slots.entries = l at hrel
  rw [forall₂_same] at hrel
  exact fun e he => (hrel e he).left

theorem Alike.count_le (h : Alike s s') : s.table.count ≤ s.table.clientsMax := by
  rw [← h.length]
  exact reduceOption_length_le _

theorem Alike.transferable (h : Alike s s) : s.table.Transferable where
  capacity_pos := h.capacity_pos
  capacity_le := h.capacity_le
  count_le := h.count_le
  fits e he := (h.settled e he).fits
  protect e he := (h.settled e he).protect

def transferred (s : TableRun) : TableRun := ⟨s.table.transferred, s.lastOp, s.revoking⟩

theorem Alike.transferred (h : Alike s s) (hcompact : Slots.Compact s.table.slots.slots) :
    Alike s s.transferred := by
  have hslots : s.table.slots.Rel (Same s.lastOp s.revoking)
      s.table.transferred.slots := by
    have hsettled := h.settled
    have hlen : (s.table.slots.entries.map ClientEntry.transferred).length =
        s.table.slots.slots.reduceOption.length := length_map _
    rw [Slots.Rel, hcompact.eq_packed]
    change List.Forall₂ _ _ (map some _ ++ List.replicate (s.table.clientsMax - _) none)
    rw [hlen, h.length]
    refine rel_append ?_ ?_
    · rw [map_map, forall₂_map_left_iff, forall₂_map_right_iff]
      exact forall₂_same.mpr fun e he => .some ⟨(e.transferred_transferred).symm,
        hsettled e he, (hsettled e he).transferred⟩
    · exact forall₂_same.mpr fun s hs => eq_of_mem_replicate hs ▸ .none
  exact { h with slots := hslots, capacity := rfl, lastOp := rfl, revoking := rfl }

/-! ## Where the copy differs -/

def registerReply (clientId op : Nat) : CachedReply where
  client := clientId
  request := registerRequestId
  commit := op
  operation := .register
  frame := { command := .reply, size := headerSize, op := op }

theorem wellFormed_registerReply {op : Nat} (hid : clientId < 256 ^ 16) (hop : op < 256 ^ 8) :
    (registerReply clientId op).WellFormed := by
  refine ⟨?_, rfl, le_rfl, le_rfl, (by decide : headerSize < 256 ^ 4)⟩
  simp only [FieldsFit, CachedReply.widths, CachedReply.fields, registerReply, forall₂_cons]
  exact ⟨by decide, by decide, by decide, by decide, by decide, by decide, by decide, by decide,
    by decide, by decide, by decide, hid, hop, hop, by decide, by decide, by decide, by decide,
    by decide, by decide, by decide, by decide, .nil⟩

theorem Alike.exists_unused (h : Alike s s') :
    ∃ clientId, clientId ≠ 0 ∧ clientId < 256 ^ 16 ∧
      ∀ e ∈ s.table.slots.entries, e.clientId ≠ clientId := by
  by_contra hall
  push Not at hall
  have hsub : range' 1 (clientsTableSlotMax + 1) ⊆
      s.table.slots.entries.map ClientEntry.clientId := by
    intro c hc
    obtain ⟨hlow, hhigh⟩ := mem_range'_1.mp hc
    have hmax : clientsTableSlotMax = 2 ^ 16 := rfl
    obtain ⟨e, he, hid⟩ := hall c (by omega) (by omega)
    exact mem_map.mpr ⟨e, he, hid⟩
  have hlen := (subperm_of_subset nodup_range' hsub).length_le
  rw [length_range', length_map] at hlen
  have hcount : s.table.slots.entries.length ≤ s.table.clientsMax := h.count_le
  have hcap := h.capacity_le
  omega

theorem flatMap_of_encode_eq {t' : ClientTable} {xxh3 : Bytes → UInt64}
    (h : t.encode xxh3 = t'.encode xxh3) (hmax : t.clientsMax = t'.clientsMax)
    (hcount : t.count = t'.count) :
    t.slots.entries.flatMap ClientEntry.encode = t'.slots.entries.flatMap ClientEntry.encode := by
  have hcontent : t.content = t'.content := (append_inj' h (by simp)).1
  rw [content, content, hmax, hcount] at hcontent
  exact append_cancel_left (append_cancel_left (append_cancel_left hcontent))

theorem table_step_register {bindVerifier : Bytes} {reply : CachedReply}
    (hok : RegisterOk clientId reply)
    (hfind : s.table.find (registered clientId userId bindVerifier reply).clientId = none)
    (hroom : s.table.count < s.table.clientsMax) :
    (s.step (.register clientId userId bindVerifier reply)).table =
      s.table.add (.registered clientId userId bindVerifier reply) hfind := by
  rw [TableRun.step, commitRegister_of_none hok hfind, if_neg (not_le.mpr hroom)]

theorem entries_add (hfind : t.find e.clientId = none) {init : List ClientEntry}
    {rest : List (Option ClientEntry)} (hslots : t.slots.slots = init.map some ++ none :: rest) :
    (t.add e hfind).slots.entries = init ++ e :: rest.reduceOption := by
  change (fill t.slots.slots e).reduceOption = _
  rw [hslots, fill_hole, reduceOption_append, reduceOption_cons_of_some, reduceOption_map_some]

theorem entries_transferred (t : ClientTable) :
    t.transferred.slots.entries = t.slots.entries.map ClientEntry.transferred :=
  reduceOption_packed _ _

theorem find_transferred (h : ∀ e ∈ t.slots.entries, e.clientId ≠ clientId) :
    t.transferred.find clientId = none := by
  refine get_eq_none.mpr fun e he => ?_
  rw [entries_transferred] at he
  obtain ⟨x, hx, rfl⟩ := mem_map.mp he
  exact h x hx

theorem entries_add_transferred (hfind : t.transferred.find e.clientId = none)
    (hroom : t.count < t.clientsMax) :
    (t.transferred.add e hfind).slots.entries =
      t.slots.entries.map ClientEntry.transferred ++ [e] := by
  obtain ⟨free, hfree⟩ := Nat.exists_eq_succ_of_ne_zero (Nat.sub_ne_zero_of_lt hroom)
  have hslots : t.transferred.slots.slots =
      (t.slots.entries.map ClientEntry.transferred).map some ++
        none :: List.replicate free none := by
    change _ ++ List.replicate (t.clientsMax - (t.slots.entries.map _).length) none = _
    rw [length_map, show t.clientsMax - t.slots.entries.length = free + 1 from hfree,
      replicate_succ]
  rw [entries_add hfind hslots, reduceOption_replicate_none]

theorem Alike.diverges (h : Alike s s) (hhole : ¬Slots.Compact s.table.slots.slots)
    (hop : s.lastOp + 1 < 2 ^ 64) (xxh3 : Bytes → UInt64) :
    ∃ op, s.Admissible op ∧
      (s.transferred.step op).table.encode xxh3 ≠ (s.step op).table.encode xxh3 := by
  obtain ⟨clientId, hzero, hid, hunused⟩ := h.exists_unused
  obtain ⟨init, rest, a, tail, hslots, htail⟩ := exists_hole_of_not_compact hhole
  have hregister : RegisterOk clientId (registerReply clientId (s.lastOp + 1)) :=
    ⟨hzero, rfl, Nat.succ_ne_zero _, rfl, rfl⟩
  have hentries : s.table.slots.entries = init ++ a :: tail := by
    rw [entries, hslots, reduceOption_append, reduceOption_cons_of_none, htail,
      reduceOption_map_some]
  have hroom : s.table.count < s.table.clientsMax := by
    rw [← h.length]
    refine reduceOption_length_lt_iff.mpr ?_
    rw [hslots]
    exact mem_append_right _ mem_cons_self
  have hlen : s.transferred.table.count = s.table.count := by
    rw [ClientTable.count, TableRun.transferred, entries_transferred, length_map]
    rfl
  have hroom' : s.transferred.table.count < s.transferred.table.clientsMax := by
    rw [hlen]
    exact hroom
  have hfind : s.table.find (registered clientId 0 (List.replicate 32 0)
      (registerReply clientId (s.lastOp + 1))).clientId = none := get_eq_none.mpr hunused
  have hfind' : s.transferred.table.find (registered clientId 0 (List.replicate 32 0)
      (registerReply clientId (s.lastOp + 1))).clientId = none := find_transferred hunused
  refine ⟨.register clientId 0 (List.replicate 32 0) (registerReply clientId (s.lastOp + 1)),
    ⟨Nat.lt_succ_self _, wellFormed_registerReply hid hop, by decide, rfl⟩, fun hencode => ?_⟩
  rw [table_step_register hregister hfind' hroom', table_step_register hregister hfind hroom] at hencode
  have hcount : (s.transferred.table.add _ hfind').count = (s.table.add _ hfind).count := by
    rw [count_add, count_add, hlen]
  -- up to the free slot the entries are the same; there the new client meets an older one
  have hflat := flatMap_of_encode_eq hencode rfl hcount
  have hmapped : (s.table.slots.entries.map ClientEntry.transferred).flatMap ClientEntry.encode =
      s.table.slots.entries.flatMap ClientEntry.encode := by
    refine flatMap_encode_eq ?_
    rw [map_map]
    exact map_congr_left fun e _ => e.transferred_transferred
  rw [entries_add hfind hslots, show (s.transferred.table.add _ hfind').slots.entries = _ from
    entries_add_transferred hfind' hroom, flatMap_append, hmapped, hentries, flatMap_append, flatMap_append,
    append_assoc, flatMap_cons, flatMap_cons] at hflat
  have hcut := append_cancel_left hflat
  have ha : a ∈ s.table.slots.entries := by
    rw [hentries]
    exact mem_append_right _ mem_cons_self
  rw [ClientEntry.encode, ClientEntry.encode, append_assoc, append_assoc, append_assoc] at hcut
  exact hunused a ha (eq_of_leBytes_append (h.settled a ha).fits.clientId hid hcut)

end Alike

/-- The replica that keeps the table and the one that installs it encode the same bytes after any
committed operations. -/
def TransferAgrees (xxh3 : Bytes → UInt64) (s : TableRun) : Prop :=
  ∀ ops, s.AdmissibleRun ops → ∃ t, decode xxh3 (s.table.encode xxh3) = .ok t ∧
    (run ⟨t, s.lastOp, s.revoking⟩ ops).table.encode xxh3 = (s.run ops).table.encode xxh3

/-- **Transferred tables keep encoding alike exactly when no free slot lies below an entry.** The
table is any that committed operations lead to, with an op number left for the next one. -/
theorem transfer_agrees_iff_compact (xxh3 : Bytes → UInt64) (s : TableRun) (hs : s.Reachable)
    (hop : s.lastOp + 1 < 2 ^ 64) : TransferAgrees xxh3 s ↔ Slots.Compact s.table.slots.slots := by
  have halike := hs.alike
  have hdecode := decode_encode xxh3 halike.transferable
  constructor
  · intro hagrees
    by_contra hhole
    obtain ⟨op, hadm, hne⟩ := halike.diverges hhole hop xxh3
    obtain ⟨t, ht, hencode⟩ := hagrees [op] ⟨hadm, trivial⟩
    rw [hdecode] at ht
    cases ht
    exact hne hencode
  · intro hcompact ops hops
    exact ⟨_, hdecode, (((halike.transferred hcompact).run hops).encode_eq xxh3).symm⟩

/-- The reply to client 1's Logout at op 3. -/
def logoutReply : CachedReply where
  client := 1
  request := 1
  commit := 3
  operation := .logout
  frame := { command := .reply, size := headerSize, op := 3 }

/-- Clients 1 and 2 register, client 1 logs out and is finalized: the first slot is free. -/
def finalizedFirst : TableRun :=
  (start 2).run [.register 1 7 (List.replicate 32 0) (registerReply 1 1),
    .register 2 7 (List.replicate 32 0) (registerReply 2 2), .logout 1 7 1 logoutReply,
    .finalizeSession ⟨1, 1, 3⟩]

theorem reachable_finalizedFirst : finalizedFirst.Reachable := by
  refine ⟨2, _, by decide, by decide, ?_, rfl⟩
  refine ⟨⟨by decide, wellFormed_registerReply ?_ ?_, by decide, rfl⟩,
    ⟨by decide, wellFormed_registerReply ?_ ?_, by decide, rfl⟩,
    ⟨by decide +kernel, ⟨by decide, rfl, le_rfl, le_rfl, by decide⟩, rfl⟩, trivial, trivial⟩ <;>
    decide

/-- Client 3 then registers on both replicas, and they encode different bytes. -/
theorem transferred_hole_encodes_differently :
    finalizedFirst.Reachable ∧
    finalizedFirst.AdmissibleRun [.register 3 7 (List.replicate 32 0) (registerReply 3 4)] ∧
    ∃ t, decode (fun _ => 0) (finalizedFirst.table.encode fun _ => 0) = .ok t ∧
      ((run ⟨t, finalizedFirst.lastOp, finalizedFirst.revoking⟩
        [.register 3 7 (List.replicate 32 0) (registerReply 3 4)]).table.encode fun _ => 0) ≠
      ((finalizedFirst.run
        [.register 3 7 (List.replicate 32 0) (registerReply 3 4)]).table.encode fun _ => 0) := by
  refine ⟨reachable_finalizedFirst, ⟨⟨by decide +kernel, wellFormed_registerReply (by decide) (by decide),
    by decide, rfl⟩, trivial⟩, finalizedFirst.table.transferred,
    decode_encode _ reachable_finalizedFirst.alike.transferable, ?_⟩
  decide +kernel

/-- Before the finalization the first slot is taken, and a transferred table stays the same. -/
theorem two_sessions_transfer_agrees :
    TransferAgrees (fun _ => 0) ((start 2).run [.register 1 7 (List.replicate 32 0)
      (registerReply 1 1), .register 2 7 (List.replicate 32 0) (registerReply 2 2)]) := by
  refine (transfer_agrees_iff_compact _ _ ⟨2, _, by decide, by decide, ?_, rfl⟩
    (by decide +kernel)).mpr trivial
  exact ⟨⟨by decide, wellFormed_registerReply (by decide) (by decide), by decide, rfl⟩,
    ⟨by decide, wellFormed_registerReply (by decide) (by decide), by decide, rfl⟩, trivial⟩

end TableRun

end Iggy
