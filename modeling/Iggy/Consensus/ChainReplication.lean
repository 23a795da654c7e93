import Iggy.Consensus.Replica

/-!
# Replicating a prepare along the chain

Source: plane_helpers.rs:144-278.

Each replica that receives a prepare forwards it to the next one on the ring that it can reach; the
one before the primary forwards it to nobody. The send is a parameter. Replica numbers are below
`REPLICAS_MAX`, so adding one to a `u8` does not overflow.
-/

namespace Iggy

open List Nat

/-- `BusSendError` (message_bus/src/error.rs:43-70). -/
inductive BusSendError
  | clientNotFound (client : Nat)
  | replicaNotConnected (replica : Nat)
  | replicaRouteMissing (replica : Nat)
  | replicaForwardFailed (replica : Nat)
  | connectionClosed
  | busShuttingDown
  | backpressure
  | routingFailed (shard : Nat)
  | dupFailed
  deriving DecidableEq

/-- The errors that send the prepare on to the next replica. -/
def BusSendError.isDisconnected : BusSendError → Bool
  | .replicaNotConnected _ | .connectionClosed => true
  | _ => false

/-- `ChainReplicationError`, without the one of a frame that does not decode. -/
inductive ChainReplicationError
  | unexpectedCommand (command : Command)
  | committedPrepare (op commitMin : Nat)
  | selfRoute (replica : Nat)
  | transport (error : BusSendError)
  deriving DecidableEq

def replicationTarget (s : VsrConsensus) (header : PrepareHeader) :
    Except ChainReplicationError (Option Nat) :=
  if header.command ≠ .prepare then .error (.unexpectedCommand header.command)
  else if header.op ≤ s.commitMin then .error (.committedPrepare header.op s.commitMin)
  else
    let next := (s.replica + 1) % s.replicaCount
    if next = s.primaryIndex header.view then .ok none
    else if next = s.replica then .error (.selfRoute s.replica)
    else .ok (some next)

/-- The replicas a send was tried to, and how it ended. -/
structure Forwarded where
  attempts : List Nat
  result : Except BusSendError Nat

/-- `none` when it goes on for more than `fuel` rounds. -/
def forwardToConnectedReplica (send : Nat → Except BusSendError Unit) (replicaCount primary : Nat) :
    (fuel next : Nat) → Option Forwarded
  | 0, _ => none
  | fuel + 1, next => match send next with
    | .ok () => some ⟨[next], .ok next⟩
    | .error error =>
      if error.isDisconnected then
        let following := (next + 1) % replicaCount
        if following = primary then some ⟨[next], .error error⟩
        else (forwardToConnectedReplica send replicaCount primary fuel following).map fun rest =>
          { rest with attempts := next :: rest.attempts }
      else some ⟨[next], .error error⟩

structure Hop where
  forwarder : Nat
  attempts : List Nat
  outcome : Except ChainReplicationError (Option Nat)

def Hop.receiver (hop : Hop) : Option Nat := match hop.outcome with
  | .ok receiver => receiver
  | .error _ => none

def replicateToNextInChain (send : Nat → Except BusSendError Unit) (s : VsrConsensus)
    (header : PrepareHeader) : Option Hop :=
  match replicationTarget s header with
  | .error error => some ⟨s.replica, [], .error error⟩
  | .ok none => some ⟨s.replica, [], .ok none⟩
  | .ok (some next) =>
    (forwardToConnectedReplica send s.replicaCount (s.primaryIndex header.view) s.replicaCount
      next).map fun forwarded => ⟨s.replica, forwarded.attempts, match forwarded.result with
        | .ok receiver => .ok (some receiver)
        | .error error => .error (.transport error)⟩

/-- A replica forwards the prepare, and then the one that received it. -/
def replicate (send : Nat → Except BusSendError Unit) (node : Nat → VsrConsensus)
    (header : PrepareHeader) : (fuel replica : Nat) → Option (List Hop)
  | 0, _ => none
  | fuel + 1, replica => do
    let hop ← replicateToNextInChain send (node replica) header
    match hop.receiver with
    | none => some [hop]
    | some receiver => return hop :: (← replicate send node header fuel receiver)

/-- A send to a replica of `disconnected` fails as not connected. -/
def sendUnless (disconnected : Finset Nat) (replica : Nat) : Except BusSendError Unit :=
  if replica ∈ disconnected then .error (.replicaNotConnected replica) else .ok ()

/-! ## The ring, by the distance from the primary -/

section Ring

variable {n p k : Nat}

/-- The replica at distance `k` after `p`. -/
def ringAt (n p k : Nat) : Nat := (p + k) % n

/-- The replicas from distance `k` on, up to the one before `p` when `m` are left. -/
def ringFrom (n p k m : Nat) : List Nat := (List.range' k m).map (ringAt n p)

theorem ringAt_succ (n p k : Nat) : (ringAt n p k + 1) % n = ringAt n p (k + 1) := by
  rw [ringAt, ringAt, mod_add_mod, add_assoc]

theorem ringAt_eq (hp : p < n) (hk : k < n) :
    ringAt n p k = if p + k < n then p + k else p + k - n := by
  unfold ringAt
  split
  case isTrue h => exact mod_eq_of_lt h
  case isFalse h => rw [mod_eq_sub_mod (by omega), mod_eq_of_lt (by omega)]

theorem ringAt_lt (hp : p < n) : ringAt n p k < n := mod_lt _ (by omega)

theorem ringAt_ne_primary (hp : p < n) (hpos : 0 < k) (hk : k < n) : ringAt n p k ≠ p := by
  rw [ringAt_eq hp hk]
  split <;> omega

theorem ringAt_self (hp : p < n) : ringAt n p n = p := by
  rw [ringAt, add_mod_right, mod_eq_of_lt hp]

theorem ringAt_injective (hp : p < n) {j : Nat} (hj : j < n) (hk : k < n)
    (h : ringAt n p j = ringAt n p k) : j = k := by
  rw [ringAt_eq hp hj, ringAt_eq hp hk] at h
  split at h <;> split at h <;> omega

theorem ringFrom_eq_append {m receiver : Nat} {skipped rest : List Nat}
    (h : ringFrom n p k m = skipped ++ receiver :: rest) :
    ∃ j m', k ≤ j ∧ j + (m' + 1) = k + m ∧ receiver = ringAt n p j ∧
      rest = ringFrom n p (j + 1) m' := by
  induction skipped generalizing k m with
  | nil => cases m with
    | zero => nomatch h
    | succ m =>
      cases h
      exact ⟨k, m, le_refl k, rfl, rfl, rfl⟩
  | cons x skipped ih => cases m with
    | zero => nomatch h
    | succ m =>
      obtain ⟨j, m', hle, hsum, hreceiver, hrest⟩ := ih (List.cons.inj h).2
      exact ⟨j, m', by omega, by omega, hreceiver, hrest⟩

theorem nodup_ringFrom (hp : p < n) : (ringFrom n p 1 (n - 1)).Nodup := by
  refine List.Nodup.map_on (fun j hj k hk h => ?_) nodup_range'
  rw [mem_range'_1] at hj hk
  exact ringAt_injective hp (by omega) (by omega) h

theorem mem_ringFrom (hp : p < n) {r : Nat} : r ∈ ringFrom n p 1 (n - 1) ↔ r < n ∧ r ≠ p := by
  unfold ringFrom
  rw [mem_map]
  constructor
  · rintro ⟨k, hk, rfl⟩
    rw [mem_range'_1] at hk
    exact ⟨ringAt_lt hp, ringAt_ne_primary hp (by omega) (by omega)⟩
  · rintro ⟨hlt, hne⟩
    obtain hbelow | habove := lt_or_gt_of_ne hne
    · refine ⟨r + n - p, mem_range'_1.mpr (by omega), ?_⟩
      rw [ringAt_eq hp (by omega), if_neg (by omega)]
      omega
    · refine ⟨r - p, mem_range'_1.mpr (by omega), ?_⟩
      rw [ringAt_eq hp (by omega), if_pos (by omega)]
      omega

end Ring

/-! ## One forwarder -/

section Forward

variable {n p : Nat} {disconnected : Finset Nat}

inductive Forwards (disconnected : Finset Nat) (ring : List Nat) (forwarded : Forwarded) : Prop
  | took (skipped rest : List Nat) (receiver : Nat) (split : ring = skipped ++ receiver :: rest)
      (unreachable : ∀ r ∈ skipped, r ∈ disconnected) (connected : receiver ∉ disconnected)
      (attempts : forwarded.attempts = skipped ++ [receiver])
      (result : forwarded.result = .ok receiver)
  | ended (unreachable : ∀ r ∈ ring, r ∈ disconnected) (attempts : forwarded.attempts = ring)
      {error : BusSendError} (result : forwarded.result = .error error)

theorem forward_connected {fuel r : Nat} (h : r ∉ disconnected) :
    forwardToConnectedReplica (sendUnless disconnected) n p (fuel + 1) r = some ⟨[r], .ok r⟩ := by
  simp [forwardToConnectedReplica, sendUnless, h]

theorem forward_disconnected {fuel r : Nat} (h : r ∈ disconnected) :
    forwardToConnectedReplica (sendUnless disconnected) n p (fuel + 1) r =
      if (r + 1) % n = p then some ⟨[r], .error (.replicaNotConnected r)⟩
      else (forwardToConnectedReplica (sendUnless disconnected) n p fuel ((r + 1) % n)).map
        fun rest => { rest with attempts := r :: rest.attempts } := by
  simp [forwardToConnectedReplica, sendUnless, h, BusSendError.isDisconnected]

/-- The loop ends before the primary, in as many rounds as there are replicas left. -/
theorem forwardToConnectedReplica_spec (disconnected : Finset Nat) (hp : p < n) {m : Nat} :
    ∀ {k fuel : Nat}, 0 < k → k + (m + 1) = n → m + 1 ≤ fuel →
      ∃ forwarded, forwardToConnectedReplica (sendUnless disconnected) n p fuel (ringAt n p k) =
          some forwarded ∧ Forwards disconnected (ringFrom n p k (m + 1)) forwarded := by
  induction m with
  | zero =>
    intro k fuel hpos hk hfuel
    obtain ⟨fuel, rfl⟩ := Nat.exists_eq_add_of_le' hfuel
    by_cases hmem : ringAt n p k ∈ disconnected
    · have hlast : (ringAt n p k + 1) % n = p := by
        rw [ringAt_succ, show k + 1 = n by omega, ringAt_self hp]
      refine ⟨_, by rw [forward_disconnected hmem, if_pos hlast], .ended ?_ rfl rfl⟩
      exact fun r hr => mem_singleton.mp hr ▸ hmem
    · exact ⟨_, forward_connected hmem, .took [] _ _ rfl nofun hmem rfl rfl⟩
  | succ m ih =>
    intro k fuel hpos hk hfuel
    obtain ⟨fuel, rfl⟩ := Nat.exists_eq_add_of_le' (Nat.le_trans (by omega) hfuel : 1 ≤ fuel)
    by_cases hmem : ringAt n p k ∈ disconnected
    · have hnext : (ringAt n p k + 1) % n ≠ p := by
        rw [ringAt_succ]
        exact ringAt_ne_primary hp (by omega) (by omega)
      obtain ⟨rest, hrest, hforwards⟩ := @ih (k + 1) fuel (by omega) (by omega) (by omega)
      refine ⟨_, by rw [forward_disconnected hmem, if_neg hnext, ringAt_succ, hrest]; rfl, ?_⟩
      cases hforwards with
      | took skipped rest receiver split unreachable connected attempts result =>
        exact .took (ringAt n p k :: skipped) rest receiver (congrArg (ringAt n p k :: ·) split)
          (forall_mem_cons.mpr ⟨hmem, unreachable⟩) connected
          (congrArg (ringAt n p k :: ·) attempts) result
      | ended unreachable attempts result =>
        exact .ended (forall_mem_cons.mpr ⟨hmem, unreachable⟩)
          (congrArg (ringAt n p k :: ·) attempts) result
    · exact ⟨_, forward_connected hmem, .took [] _ _ rfl nofun hmem rfl rfl⟩

end Forward

/-! ## The chain -/

section Chain

variable {n : Nat} {node : Nat → VsrConsensus} {header : PrepareHeader} {disconnected : Finset Nat}

theorem replicationTarget_eq {s : VsrConsensus} (hcommand : header.command = .prepare)
    (hop : s.commitMin < header.op) : replicationTarget s header =
      .ok (if (s.replica + 1) % s.replicaCount = s.primaryIndex header.view then none
        else some ((s.replica + 1) % s.replicaCount)) := by
  unfold replicationTarget
  rw [if_neg (not_not.mpr hcommand), if_neg (not_le.mpr hop)]
  dsimp only
  split_ifs with hprimary hself
  · rfl
  · -- next to itself is only the one replica of a group, and that is the primary
    have hreplica := s.replica_lt
    have hone : s.replicaCount = 1 := by
      by_contra hne
      rcases lt_or_ge (s.replica + 1) s.replicaCount with hlt | hge
      · rw [mod_eq_of_lt hlt] at hself
        omega
      · rw [show s.replica + 1 = s.replicaCount by omega, mod_self] at hself
        omega
    simp [VsrConsensus.primaryIndex, hone, mod_one] at hprimary
  · rfl

/-- It forwards to the first connected replica after it. -/
theorem replicateToNextInChain_spec {p k m : Nat} (hp : header.view % n = p) (hlt : p < n)
    (hk : k + (m + 1) = n) (hnode : ∀ r < n, (node r).replica = r ∧ (node r).replicaCount = n)
    (hcommand : header.command = .prepare) (hop : (node (ringAt n p k)).commitMin < header.op) :
    ∃ hop, replicateToNextInChain (sendUnless disconnected) (node (ringAt n p k)) header =
        some hop ∧ hop.forwarder = ringAt n p k ∧
      ((∃ skipped rest receiver, ringFrom n p (k + 1) m = skipped ++ receiver :: rest ∧
          (∀ r ∈ skipped, r ∈ disconnected) ∧ receiver ∉ disconnected ∧
          hop.attempts = skipped ++ [receiver] ∧ hop.receiver = some receiver) ∨
        (∀ r ∈ ringFrom n p (k + 1) m, r ∈ disconnected) ∧
          hop.attempts = ringFrom n p (k + 1) m ∧ hop.receiver = none) := by
  obtain ⟨hreplica, hcount⟩ := hnode (ringAt n p k) (ringAt_lt hlt)
  have hprimary : (node (ringAt n p k)).primaryIndex header.view = p := by
    rw [VsrConsensus.primaryIndex, hcount, hp]
  have htarget := replicationTarget_eq hcommand hop
  rw [hprimary, hreplica, hcount, ringAt_succ] at htarget
  unfold replicateToNextInChain
  rw [htarget, hprimary, hcount, hreplica]
  cases m with
  | zero =>
    rw [if_pos (by rw [show k + 1 = n by omega, ringAt_self hlt])]
    exact ⟨_, rfl, rfl, .inr ⟨nofun, rfl, rfl⟩⟩
  | succ m =>
    rw [if_neg (ringAt_ne_primary hlt (by omega) (by omega))]
    obtain ⟨forwarded, hforwarded, hspec⟩ := forwardToConnectedReplica_spec disconnected
      hlt (show 0 < k + 1 by omega) (show k + 1 + (m + 1) = n by omega) (show m + 1 ≤ n by omega)
    refine ⟨_, by simp only [hforwarded]; rfl, rfl, ?_⟩
    cases hspec with
    | took skipped rest receiver split unreachable connected attempts result =>
      refine .inl ⟨skipped, rest, receiver, split, unreachable, connected, attempts, ?_⟩
      simp only [Hop.receiver, result]
    | ended unreachable attempts result =>
      refine .inr ⟨unreachable, attempts, ?_⟩
      simp only [Hop.receiver, result]

/-- By induction on the replicas left: the hop takes the prepare to one with fewer left. -/
theorem replicate_spec {p : Nat} (disconnected : Finset Nat) (hp : header.view % n = p)
    (hlt : p < n) (hnode : ∀ r < n, (node r).replica = r ∧ (node r).replicaCount = n)
    (hcommand : header.command = .prepare)
    (huncommitted : ∀ r < n, r ∉ disconnected → (node r).commitMin < header.op) (m : Nat) :
    ∀ {k fuel : Nat}, ringAt n p k ∉ disconnected → k + (m + 1) = n → m + 1 ≤ fuel →
      ∃ hops, replicate (sendUnless disconnected) node header fuel (ringAt n p k) = some hops ∧
        hops.filterMap Hop.receiver = (ringFrom n p (k + 1) m).filter (· ∉ disconnected) ∧
        hops.map Hop.forwarder = ringAt n p k :: hops.filterMap Hop.receiver ∧
        (∀ hop ∈ hops.getLast?, hop.receiver = none) ∧
        ∀ hop ∈ hops, hop.attempts.Sublist (ringFrom n p (k + 1) m) := by
  induction m using Nat.strong_induction_on with
  | _ m ih =>
    intro k fuel hmem hk hfuel
    obtain ⟨fuel, rfl⟩ := Nat.exists_eq_add_of_le' (Nat.le_trans (by omega) hfuel : 1 ≤ fuel)
    obtain ⟨hop, hhop, hforwarder, htook | hended⟩ :=
      @replicateToNextInChain_spec n node header disconnected p k m hp hlt hk hnode hcommand
        (huncommitted _ (ringAt_lt hlt) hmem)
    · obtain ⟨skipped, rest, receiver, hsplit, hskipped, hconnected, hattempts, hreceiver⟩ := htook
      obtain ⟨j, m', hle, hsum, rfl, rfl⟩ := ringFrom_eq_append hsplit
      obtain ⟨hops, hhops, hreceivers, hforwarders, hlast, hsub⟩ :=
        @ih m' (by omega) j fuel hconnected (by omega) (by omega)
      have hfilter : (ringFrom n p (k + 1) m).filter (· ∉ disconnected) =
          ringAt n p j :: (ringFrom n p (j + 1) m').filter (· ∉ disconnected) := by
        rw [hsplit, filter_append, filter_eq_nil_iff.mpr (by simpa using hskipped),
          nil_append, filter_cons_of_pos (by simpa using hconnected)]
      have hmap : (hop :: hops).filterMap Hop.receiver =
          ringAt n p j :: hops.filterMap Hop.receiver := filterMap_cons_some hreceiver
      refine ⟨hop :: hops, ?_, ?_, ?_, ?_, ?_⟩
      · simp [replicate, hhop, hreceiver, hhops]
      · rw [hmap, hfilter, hreceivers]
      · rw [map_cons, hforwarder, hforwarders, hmap]
      · cases hops with
        | nil => nomatch hforwarders
        | cons _ _ => rwa [getLast?_cons_cons]
      · intro hop' hmem
        rw [hsplit]
        obtain rfl | hmem := mem_cons.mp hmem
        · rw [hattempts]
          exact List.Sublist.append_left (singleton_sublist.mpr mem_cons_self) _
        · exact ((hsub hop' hmem).cons _).trans (sublist_append_right ..)
    · obtain ⟨hall, hattempts, hreceiver⟩ := hended
      have hmap : [hop].filterMap Hop.receiver = [] := filterMap_cons_none hreceiver
      refine ⟨[hop], ?_, ?_, ?_, ?_, ?_⟩
      · simp [replicate, hhop, hreceiver]
      · rw [hmap, filter_eq_nil_iff.mpr (by simpa using hall)]
      · rw [hmap, map_singleton, hforwarder]
      · intro hop' hmem
        cases hmem
        exact hreceiver
      · intro hop' hmem
        rw [mem_singleton.mp hmem, hattempts]

/-- **Chain replication covers every connected backup once**, for a prepare that none of them has
committed: those outside `disconnected` receive it, in ring order after the primary. The primary and
each of them forwards it, the last to nobody; no send goes to the primary. -/
theorem replicate_covers_backups (disconnected : Finset Nat) (hn : 1 ≤ n)
    (hprimary : header.view % n ∉ disconnected)
    (hnode : ∀ r < n, (node r).replica = r ∧ (node r).replicaCount = n)
    (hcommand : header.command = .prepare)
    (huncommitted : ∀ r < n, r ∉ disconnected → (node r).commitMin < header.op)
    {fuel : Nat} (hfuel : n ≤ fuel) :
    ∃ hops receivers,
      replicate (sendUnless disconnected) node header fuel (header.view % n) = some hops ∧
      receivers = ((List.range' 1 (n - 1)).map fun k => (header.view % n + k) % n).filter
        (· ∉ disconnected) ∧
      hops.filterMap Hop.receiver = receivers ∧
      hops.map Hop.forwarder = header.view % n :: receivers ∧
      (∀ hop ∈ hops.getLast?, hop.receiver = none) ∧
      receivers.Nodup ∧ (∀ r, r ∈ receivers ↔ r < n ∧ r ∉ disconnected ∧ r ≠ header.view % n) ∧
      ∀ hop ∈ hops, header.view % n ∉ hop.attempts ∧ hop.attempts.length ≤ n - 1 := by
  have hlt : header.view % n < n := mod_lt _ hn
  have hzero : ringAt n (header.view % n) 0 = header.view % n := mod_mod _ _
  obtain ⟨hops, hhops, hreceivers, hforwarders, hlast, hsub⟩ := replicate_spec disconnected rfl hlt
    hnode hcommand huncommitted (n - 1) (hzero.symm ▸ hprimary) (show 0 + (n - 1 + 1) = n by omega)
    (show n - 1 + 1 ≤ fuel by omega)
  rw [hzero] at hhops hforwarders
  refine ⟨hops, hops.filterMap Hop.receiver, hhops, hreceivers, rfl, hforwarders, hlast, ?_, ?_, ?_⟩
  · rw [hreceivers]
    exact (nodup_ringFrom hlt).filter _
  · intro r
    rw [hreceivers, mem_filter, mem_ringFrom hlt]
    simp only [decide_eq_true_eq]
    tauto
  · intro hop hmem
    refine ⟨fun hp => ?_, ?_⟩
    · exact ((mem_ringFrom hlt).mp ((hsub hop hmem).subset hp)).2 rfl
    · simpa [ringFrom] using (hsub hop hmem).length_le

def fiveReplicas (r : Nat) : VsrConsensus where
  cluster := 0
  replica := r % 5
  replicaCount := 5
  group := 0
  replica_lt := mod_lt _ (by decide)
  commit_le := VsrConsensus.fresh_commit_le

/-- The second of five replicas is primary, and two of the others are disconnected. -/
theorem replicate_covers_five :
    ∃ hops, replicate (sendUnless {2, 4}) fiveReplicas
        { command := .prepare, op := 1, view := 6 } 5 1 = some hops ∧
      hops.filterMap Hop.receiver = [3, 0] := by
  obtain ⟨hops, receivers, hhops, hreceivers, hmap, -⟩ := @replicate_covers_backups 5 fiveReplicas
    { command := .prepare, op := 1, view := 6 } {2, 4} (by decide) (by decide)
    (fun r hr => ⟨mod_eq_of_lt hr, rfl⟩) rfl (fun _ _ _ => zero_lt_one) 5 (le_refl 5)
  exact ⟨hops, hhops, by rw [hmap, hreceivers]; decide⟩

end Chain

end Iggy
