import Iggy.Consensus.ViewChange

/-!
# Votes in any order

The candidate of a view seats one vote per sender. A replica barred from electing casts an empty
vote first and may cast a real one once it has recovered its log, so `dvc_record` replaces an empty
vote by a real one and nothing else. The seated votes then depend on which votes were cast and not
on the order, or the number, in which they arrive; and so does what the merge decides.
-/

namespace Iggy

open List DvcQuorumArray

namespace StoredDvc

theorem eq_of_isEmptyVote {d e : StoredDvc} (hd : d.isEmptyVote = true) (he : e.isEmptyVote = true)
    (h : d.replica = e.replica) : d = e := by
  obtain ⟨replica, logView, op, commit, ⟨headers, nack, present, _, hnack, hpresent⟩, untrusted⟩ := d
  obtain ⟨replica', logView', op', commit', ⟨headers', nack', present', _, hnack', hpresent'⟩,
    untrusted'⟩ := e
  simp only [isEmptyVote, Bool.and_eq_true, beq_iff_eq, List.isEmpty_iff] at hd he
  obtain ⟨⟨⟨⟨rfl, rfl⟩, rfl⟩, rfl⟩, rfl⟩ := hd
  obtain ⟨⟨⟨⟨rfl, rfl⟩, rfl⟩, rfl⟩, rfl⟩ := he
  simp only [length_nil, pow_zero, Nat.lt_one_iff] at hnack hpresent hnack' hpresent'
  subst hnack hpresent hnack' hpresent'
  obtain rfl : replica = replica' := h
  rfl

end StoredDvc

namespace DvcQuorumArray

def keep (slot : Option StoredDvc) (vote : StoredDvc) : Option StoredDvc :=
  if slot.any fun seated => !seated.isEmptyVote || vote.isEmptyVote then slot else some vote

variable (a : DvcQuorumArray)

theorem dvcRecord_slot (vote : StoredDvc) (i : Fin replicasMax) :
    (a.dvcRecord vote).1.slot i = if vote.replica = i then keep (a.slot i) vote else a.slot i := by
  unfold dvcRecord keep
  by_cases hi : vote.replica = i
  · subst hi
    split <;> simp_all [seat]
  · rw [if_neg hi]
    split
    · rfl
    · exact Function.update_of_ne (Ne.symm hi) ..

variable (votes : List StoredDvc)

def record : DvcQuorumArray :=
  votes.foldl (fun a vote => (a.dvcRecord vote).1) a

def Cast (vote : StoredDvc) : Prop :=
  a.slot vote.replica = some vote ∨ vote ∈ votes

/-- Each sender casts copies of one real vote, besides empty ones. -/
def OneRealVote : Prop :=
  ∀ d e, a.Cast votes d → a.Cast votes e → d.replica = e.replica → d.isEmptyVote = false →
    e.isEmptyVote = false → d = e

variable {a : DvcQuorumArray}

theorem dvcRecord_of_real {vote seated : StoredDvc} (h : a.slot vote.replica = some seated)
    (real : seated.isEmptyVote = false) : (a.dvcRecord vote).1 = a := by
  simp [dvcRecord, h, real]

theorem keep_cases (slot : Option StoredDvc) (vote : StoredDvc) :
    ∃ kept, keep slot vote = some kept ∧ (slot = some kept ∨ kept = vote) ∧
      (kept.isEmptyVote = true → vote.isEmptyVote = true ∧ ∀ seated ∈ slot, seated.isEmptyVote) := by
  unfold keep
  cases slot with
  | none => exact ⟨vote, by simp, .inr rfl, by simp⟩
  | some seated =>
    cases hseated : seated.isEmptyVote <;> cases hvote : vote.isEmptyVote <;>
      simp [hseated, hvote]

/-- A real vote if there is one. -/
def Chosen (a : DvcQuorumArray) (votes : List StoredDvc) (vote : StoredDvc) : Prop :=
  a.Cast votes vote ∧ (vote.isEmptyVote = true →
    ∀ other, a.Cast votes other → other.replica = vote.replica → other.isEmptyVote = true)

variable {first d : StoredDvc} {rest : List StoredDvc}

theorem cast_of_dvcRecord (h : (a.dvcRecord first).1.Cast rest d) : a.Cast (first :: rest) d := by
  rcases h with hslot | hmem
  · rw [dvcRecord_slot] at hslot
    split at hslot
    · obtain ⟨kept, hkept, hold, -⟩ := keep_cases (a.slot d.replica) first
      obtain rfl : kept = d := Option.some.inj (hkept.symm.trans hslot)
      rcases hold with hold | rfl
      · exact .inl hold
      · exact .inr mem_cons_self
    · exact .inl hslot
  · exact .inr (mem_cons_of_mem _ hmem)

theorem OneRealVote.dvcRecord (one : a.OneRealVote (first :: rest)) :
    (a.dvcRecord first).1.OneRealVote rest :=
  fun d e hd he => one d e (cast_of_dvcRecord hd) (cast_of_dvcRecord he)

theorem Chosen.dvcRecord (one : a.OneRealVote (first :: rest)) (h : a.Chosen (first :: rest) d) :
    (a.dvcRecord first).1.Chosen rest d := by
  refine ⟨?_, fun hempty other hother => h.2 hempty other (cast_of_dvcRecord hother)⟩
  by_cases hrest : d ∈ rest
  · exact .inr hrest
  have hcast : a.slot d.replica = some d ∨ d = first := by
    simpa [Cast, hrest] using h.1
  left
  rw [dvcRecord_slot]
  split <;> rename_i hsender
  · -- The slot keeps a vote of this sender: `d` itself, by what makes `d` the choice.
    obtain ⟨kept, hkept, hold, hreal⟩ := keep_cases (a.slot d.replica) first
    have hreplica : kept.replica = d.replica := by
      rcases hold with hold | rfl
      · exact a.seated _ _ hold
      · exact hsender
    have hkeptCast : a.Cast (first :: rest) kept := by
      rcases hold with hold | rfl
      · exact .inl (hreplica ▸ hold)
      · exact .inr mem_cons_self
    rw [hkept]
    congr 1
    cases hd : d.isEmptyVote with
    | true => exact StoredDvc.eq_of_isEmptyVote (h.2 hd kept hkeptCast hreplica) hd hreplica
    | false =>
      refine one kept d hkeptCast h.1 hreplica ?_ hd
      by_contra hempty
      obtain ⟨hfirst, hseated⟩ := hreal (by simpa using hempty)
      rcases hcast with hslot | rfl
      · simp [hseated d hslot] at hd
      · simp [hfirst] at hd
  · rcases hcast with hslot | rfl
    · exact hslot
    · exact absurd rfl hsender

variable {votes : List StoredDvc}

/-- **Every slot ends up with the vote it has to choose.** -/
theorem record_slot_of_chosen (one : a.OneRealVote votes) (h : a.Chosen votes d) :
    (a.record votes).slot d.replica = some d := by
  induction votes generalizing a with
  | nil => simpa [record, Cast] using h.1
  | cons first rest ih => exact ih one.dvcRecord (h.dvcRecord one)

theorem cast_of_record_slot (h : (a.record votes).slot d.replica = some d) : a.Cast votes d := by
  induction votes generalizing a with
  | nil => exact .inl h
  | cons first rest ih => exact cast_of_dvcRecord (ih h)

theorem exists_chosen (h : a.Cast votes d) : ∃ e, a.Chosen votes e ∧ e.replica = d.replica := by
  by_cases hreal : ∃ e, a.Cast votes e ∧ e.replica = d.replica ∧ e.isEmptyVote = false
  · obtain ⟨e, he, hreplica, hreal⟩ := hreal
    exact ⟨e, ⟨he, by simp [hreal]⟩, hreplica⟩
  · refine ⟨d, ⟨h, fun _ other hother hreplica => ?_⟩, rfl⟩
    by_contra hempty
    exact hreal ⟨other, hother, hreplica, by simpa using hempty⟩

theorem ext_slot {b : DvcQuorumArray} (h : ∀ i, a.slot i = b.slot i) : a = b := by
  obtain ⟨slot, _⟩ := a
  obtain ⟨slot', _⟩ := b
  obtain rfl : slot = slot' := funext h
  rfl

/-- **The seated votes depend on the votes cast only**, not on their order or number. -/
theorem record_eq_of_mem_iff {votes' : List StoredDvc} (one : a.OneRealVote votes)
    (same : ∀ d, d ∈ votes ↔ d ∈ votes') : a.record votes = a.record votes' := by
  have hcast : ∀ d, a.Cast votes d ↔ a.Cast votes' d := fun d => or_congr Iff.rfl (same d)
  have hchosen : ∀ d, a.Chosen votes d ↔ a.Chosen votes' d := by simp only [Chosen, hcast, implies_true]
  have one' : a.OneRealVote votes' := by simpa only [OneRealVote, hcast] using one
  refine ext_slot fun i => ?_
  by_cases hvoted : ∃ d, a.Cast votes d ∧ d.replica = i
  · obtain ⟨d, hd, rfl⟩ := hvoted
    obtain ⟨e, he, hreplica⟩ := exists_chosen hd
    rw [← hreplica, record_slot_of_chosen one he, record_slot_of_chosen one' ((hchosen e).mp he)]
  · have hnone : ∀ votes'', (∀ d, a.Cast votes d ↔ a.Cast votes'' d) →
        (a.record votes'').slot i = none := by
      intro votes'' hiff
      rw [Option.eq_none_iff_forall_ne_some]
      intro d hd
      obtain rfl := (a.record votes'').seated i d hd
      exact hvoted ⟨d, (hiff d).mpr (cast_of_record_slot hd), rfl⟩
    rw [hnone votes fun _ => Iff.rfl, hnone votes' hcast]

theorem record_slot_iff (one : a.OneRealVote votes) {i : Fin replicasMax} :
    (a.record votes).slot i = some d ↔ d.replica = i ∧ a.Chosen votes d := by
  constructor
  · intro h
    obtain rfl := (a.record votes).seated i d h
    obtain ⟨e, he, hreplica⟩ := exists_chosen (cast_of_record_slot h)
    have hslot := record_slot_of_chosen one he
    rw [hreplica, h] at hslot
    exact ⟨rfl, Option.some.inj hslot ▸ he⟩
  · rintro ⟨rfl, h⟩
    exact record_slot_of_chosen one h

end DvcQuorumArray

namespace VsrConsensus

abbrev VoteMessage := DoViewChangeHeader × Bytes

def voteOf (xxh3 : Bytes → Nat) (message : VoteMessage) : Option StoredDvc :=
  let header := message.1
  if h : header.replica < replicasMax then
    match dvcSuffixDecode xxh3 message.2 header.op header.nackBitset header.presentBitset with
    | .error _ => none
    | .ok suffix => some ⟨⟨header.replica, h⟩, header.logView, header.op, header.commit, suffix,
        header.untrustedLog⟩
  else none

def receiveVotes (xxh3 : Bytes → Nat) (s : VsrConsensus) (messages : List VoteMessage) :
    Option VsrConsensus :=
  messages.foldlM (fun s message => (s.handleDoViewChange xxh3 message.1 message.2).map (·.1)) s

/-- What counting votes reads and writes. -/
structure BallotBox where
  view : Nat
  group : Nat
  replica : Nat
  replicaCount : Nat
  status : Status
  sentOwnDoViewChange : Bool
  votes : DvcQuorumArray

variable (s : VsrConsensus)

def ballotBox : BallotBox :=
  ⟨s.view, s.group, s.replica, s.replicaCount, s.status, s.sentOwnDoViewChange,
    s.doViewChangeFromAllReplicas⟩

structure BallotBox.Candidate (box : BallotBox) : Prop where
  primary : box.view % box.replicaCount = box.replica
  status : box.status = .viewChange
  replica : box.replica < replicasMax

structure BallotBox.Ballot (xxh3 : Bytes → Nat) (box : BallotBox) (message : VoteMessage)
    (vote : StoredDvc) : Prop where
  group : message.1.group = box.group
  view : message.1.view = box.view
  decoded : voteOf xxh3 message = some vote

/-- The vote the candidate seats with the first one it receives. -/
def ownVotes : List StoredDvc :=
  if s.sentOwnDoViewChange then [] else s.ownDvc.toList

def BallotBox.add (box : BallotBox) (votes : List StoredDvc) : BallotBox :=
  { box with sentOwnDoViewChange := true, votes := box.votes.record votes }

/-! ## One vote -/

theorem ballotBox_parkMergedLog (merged : MergedLog) :
    (s.parkMergedLog merged).ballotBox = s.ballotBox := by
  simp only [ballotBox, parkMergedLog, reopenViewLogProof, markViewLogUnproven, advanceCommitMax]

theorem ballotBox_completeOnQuorum : s.completeOnQuorum.ballotBox = s.ballotBox := by
  unfold completeOnQuorum completeViewChangeAsPrimary
  split
  · split
    · split
      · rfl
      · exact ballotBox_parkMergedLog s _
    · rfl
  · rfl

theorem ballotBox_seatVote (vote : StoredDvc) : (s.seatVote vote).ballotBox =
      { s.ballotBox with votes := (s.doViewChangeFromAllReplicas.dvcRecord vote).1 } := by
  unfold seatVote
  cases hrecord : s.doViewChangeFromAllReplicas.dvcRecord vote with
  | mk votes changed =>
    cases changed with
    | true => exact ballotBox_completeOnQuorum _
    | false =>
      have hsame : s.doViewChangeFromAllReplicas = votes := by
        unfold dvcRecord at hrecord
        split at hrecord <;> cases hrecord
        rfl
      simp [ballotBox, hsame]

variable {s : VsrConsensus}

theorem ballotBox_seatOwnVote (hs : s.replica < replicasMax) :
    ∃ t, s.seatOwnVote = some t ∧ t.ballotBox = s.ballotBox.add s.ownVotes := by
  unfold seatOwnVote ownVotes
  split
  · rename_i hsent
    exact ⟨s, rfl, by simp [ballotBox, BallotBox.add, hsent, record]⟩
  · simp only [ownDvc, hs, dite_true, Option.map_some]
    exact ⟨_, rfl, rfl⟩

variable {xxh3 : Bytes → Nat}

theorem ballotBox_handleDoViewChange {message : VoteMessage} {vote : StoredDvc}
    (candidate : s.ballotBox.Candidate) (ballot : s.ballotBox.Ballot xxh3 message vote) :
    ∃ t, s.handleDoViewChange xxh3 message.1 message.2 = some (t, []) ∧
      t.ballotBox = s.ballotBox.add (s.ownVotes ++ [vote]) := by
  obtain ⟨own, hown, hbox⟩ := ballotBox_seatOwnVote candidate.replica
  have hprimary : s.isPrimary = true := beq_iff_eq.mpr candidate.primary
  have hstatus : s.status = .viewChange := candidate.status
  have hgroup : message.1.group = s.group := ballot.group
  have hview : message.1.view = s.view := ballot.view
  have hdecoded := ballot.decoded
  simp only [voteOf] at hdecoded
  split_ifs at hdecoded with hreplica
  split at hdecoded
  · cases hdecoded
  rename_i suffix hsuffix
  refine ⟨own.seatVote vote, ?_, (ballotBox_seatVote own vote).trans ?_⟩
  · simp [handleDoViewChange, hgroup, hstatus, hsuffix, hview, followView, countVote, hprimary,
      hreplica, hown, ← Option.some.inj hdecoded]
  · have hvotes : own.doViewChangeFromAllReplicas = (s.ballotBox.add s.ownVotes).votes :=
      congrArg BallotBox.votes hbox
    rw [hbox, hvotes]
    simp [BallotBox.add, record]

/-! ## Every order -/

def recorded (s : VsrConsensus) : List StoredDvc → List StoredDvc
  | [] => []
  | votes => s.ownVotes ++ votes

theorem BallotBox.Candidate.add {box : BallotBox} (h : box.Candidate) (votes : List StoredDvc) :
    (box.add votes).Candidate :=
  ⟨h.primary, h.status, h.replica⟩

theorem BallotBox.Ballot.add {box : BallotBox} {message : VoteMessage} {vote : StoredDvc}
    (h : box.Ballot xxh3 message vote) (votes : List StoredDvc) :
    (box.add votes).Ballot xxh3 message vote :=
  ⟨h.group, h.view, h.decoded⟩

theorem ballotBox_receiveVotes {messages : List VoteMessage} {votes : List StoredDvc}
    (candidate : s.ballotBox.Candidate)
    (ballots : List.Forall₂ (s.ballotBox.Ballot xxh3) messages votes) :
    ∃ t, s.receiveVotes xxh3 messages = some t ∧
      t.doViewChangeFromAllReplicas = s.doViewChangeFromAllReplicas.record (s.recorded votes) := by
  induction messages generalizing s votes with
  | nil =>
    cases ballots
    exact ⟨s, rfl, rfl⟩
  | cons message rest ih =>
    obtain ⟨vote, votes, ballot, hrest, rfl⟩ := forall₂_cons_left_iff.mp ballots
    obtain ⟨t, hhandle, hbox⟩ := ballotBox_handleDoViewChange candidate ballot
    have hvotes : t.doViewChangeFromAllReplicas =
        s.doViewChangeFromAllReplicas.record (s.ownVotes ++ [vote]) := congrArg BallotBox.votes hbox
    have hsent : t.sentOwnDoViewChange = true := congrArg BallotBox.sentOwnDoViewChange hbox
    obtain ⟨u, hu, huvotes⟩ := @ih t votes (hbox ▸ candidate.add _)
      (hrest.imp fun _ _ h => hbox ▸ h.add _)
    refine ⟨u, by simpa [receiveVotes, hhandle] using hu, ?_⟩
    -- After the first vote the candidate has no own vote left to add.
    have hrecorded : t.recorded votes = votes := by
      cases votes <;> simp [recorded, ownVotes, hsent]
    rw [huvotes, hrecorded, hvotes]
    simp [recorded, record]

theorem mem_recorded_of_perm {votes votes' : List StoredDvc} (perm : votes.Perm votes')
    (d : StoredDvc) : d ∈ s.recorded votes ↔ d ∈ s.recorded votes' := by
  cases votes with
  | nil => rw [perm.nil_eq]
  | cons vote rest =>
    cases votes' with
    | nil => exact absurd perm.symm (by simp)
    | cons vote' rest' => simp only [recorded, mem_append, perm.mem_iff]

/-- **The decision does not depend on the order of the votes.** However the votes of one view arrive
at its candidate, of each sender the real vote is seated if it cast one, and the empty one
otherwise. So the merge decides the same, and a seated real vote is not replaced. -/
theorem votes_in_any_order (xxh3 : Bytes → Nat) (s : VsrConsensus)
    (messages messages' : List VoteMessage) (votes votes' : List StoredDvc)
    (candidate : s.ballotBox.Candidate)
    (ballots : List.Forall₂ (s.ballotBox.Ballot xxh3) messages votes)
    (ballots' : List.Forall₂ (s.ballotBox.Ballot xxh3) messages' votes')
    (perm : votes.Perm votes')
    (one : s.doViewChangeFromAllReplicas.OneRealVote (s.recorded votes)) :
    ∃ t t', s.receiveVotes xxh3 messages = some t ∧ s.receiveVotes xxh3 messages' = some t' ∧
      t.doViewChangeFromAllReplicas = t'.doViewChangeFromAllReplicas ∧
      (∀ i d, t.doViewChangeFromAllReplicas.slot i = some d ↔
        d.replica = i ∧ s.doViewChangeFromAllReplicas.Chosen (s.recorded votes) d) ∧
      (∀ quorums, mergeViewChange t.doViewChangeFromAllReplicas quorums =
        mergeViewChange t'.doViewChangeFromAllReplicas quorums) ∧
      ∀ seated vote, t.doViewChangeFromAllReplicas.slot vote.replica = some seated →
        seated.isEmptyVote = false →
        (t.doViewChangeFromAllReplicas.dvcRecord vote).1 = t.doViewChangeFromAllReplicas := by
  obtain ⟨t, hrun, hvotes⟩ := ballotBox_receiveVotes candidate ballots
  obtain ⟨t', hrun', hvotes'⟩ := ballotBox_receiveVotes candidate ballots'
  have hsame : t.doViewChangeFromAllReplicas = t'.doViewChangeFromAllReplicas := by
    rw [hvotes, hvotes', record_eq_of_mem_iff one (mem_recorded_of_perm perm)]
  refine ⟨t, t', hrun, hrun', hsame, fun i d => ?_, fun quorums => by rw [hsame],
    fun seated vote hslot hreal => dvcRecord_of_real hslot hreal⟩
  rw [hvotes]
  exact record_slot_iff one

def electing : VsrConsensus where
  cluster := 1
  replica := 1
  replicaCount := 3
  group := 0
  view := 1
  status := .viewChange
  replica_lt := second_of_three
  commit_le := fresh_commit_le

/-- A replica's vote before its log is back, and its real one. -/
def emptyMessage : VoteMessage :=
  ({ replica := 0, view := 1, logView := 0, op := 0, commit := 0, group := 0,
     untrustedLog := true }, [])

def realMessage : VoteMessage :=
  ({ replica := 0, view := 1, logView := 0, op := 0, commit := 0, group := 0 }, [])

def emptyVote : StoredDvc := ⟨0, 0, 0, 0, .empty, true⟩

def realVote : StoredDvc := ⟨0, 0, 0, 0, .empty, false⟩

theorem electing_oneRealVote :
    electing.doViewChangeFromAllReplicas.OneRealVote (electing.recorded [emptyVote, realVote]) := by
  have hone : ∀ d ∈ electing.recorded [emptyVote, realVote],
      ∀ e ∈ electing.recorded [emptyVote, realVote], d.replica = e.replica →
        d.isEmptyVote = false → e.isEmptyVote = false → d = e := by decide
  intro d e hd he
  exact hone d (hd.resolve_left nofun) e (he.resolve_left nofun)

theorem votes_in_any_order_electing : ∃ t t',
    electing.receiveVotes (fun _ => 0) [emptyMessage, realMessage] = some t ∧
    electing.receiveVotes (fun _ => 0) [realMessage, emptyMessage] = some t' ∧
    t.doViewChangeFromAllReplicas = t'.doViewChangeFromAllReplicas ∧
    t.doViewChangeFromAllReplicas.slot 0 = some realVote := by
  have hempty : electing.ballotBox.Ballot (fun _ => 0) emptyMessage emptyVote := ⟨rfl, rfl, rfl⟩
  have hreal : electing.ballotBox.Ballot (fun _ => 0) realMessage realVote := ⟨rfl, rfl, rfl⟩
  obtain ⟨t, t', hrun, hrun', hsame, hslot, -, -⟩ := votes_in_any_order (fun _ => 0) electing
    [emptyMessage, realMessage] [realMessage, emptyMessage] [emptyVote, realVote]
    [realVote, emptyVote] ⟨rfl, rfl, by decide⟩ (.cons hempty (.cons hreal .nil))
    (.cons hreal (.cons hempty .nil)) (.swap ..) electing_oneRealVote
  exact ⟨t, t', hrun, hrun', hsame, (hslot 0 realVote).mpr ⟨rfl, .inr (by decide), nofun⟩⟩

end VsrConsensus

end Iggy
