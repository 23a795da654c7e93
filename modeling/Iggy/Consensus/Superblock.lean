import Iggy.Consensus.ViewChange
import Mathlib.Data.Nat.Bitwise

/-!
# The superblock gate

A replica may act in a view only once its superblock records that view (`needs_superblock_persist`).
Writes are serialized, but the replica moves on while one is in flight, so a completed write marks
durable what it captured when it began. `Agrees` is what every interleaving keeps: the durable marks
are those of the last completed write, and as long as the adopted view is not dirty both that write
and the one in flight carry it.

Line numbers are of `consensus/src/impls.rs` unless another file is named.
-/

namespace Iggy

/-- The record a superblock holds (vsr_state.rs:72-132). -/
structure VsrState where
  cluster : Nat
  replicaId : Nat
  replicaCount : Nat
  view : Nat
  logView : Nat
  commitMax : Nat
  checkpointOp : Nat
  checkpointChecksum : Nat
  offsetFrontier : Nat
  offsetReserved : Nat
  adoptedView : Option AdoptedView
  deriving DecidableEq

namespace VsrState

/-- `history_certificate` (vsr_state.rs:359-369): unpacked from the two offset words. -/
def historyCertificate (r : VsrState) : Option HistoryCertificate :=
  let view := (r.offsetReserved >>> 32) % 2 ^ 32
  if view = 0 then none
  else some ⟨view - 1, r.offsetFrontier, BitVec.ofNat 32 r.offsetReserved⟩

/-- The two words a certificate is packed into (vsr_state.rs:378-389); a view with no room for the
plus one is stored as none. -/
def packCertificate : Option HistoryCertificate → Nat × Nat
  | some c =>
    if c.view + 1 < 2 ^ 32 then (c.op, (c.view + 1) <<< 32 ||| c.checksum.toNat) else (0, 0)
  | none => (0, 0)

/-- `with_history_certificate` (vsr_state.rs:374-393). -/
def withHistoryCertificate (r : VsrState) (certificate : Option HistoryCertificate) : VsrState :=
  { r with
    offsetFrontier := (packCertificate certificate).1
    offsetReserved := (packCertificate certificate).2 }

end VsrState

namespace VsrConsensus

variable (s : VsrConsensus)

/-- `persisted_log_view` (2804-2812). -/
def persistedLogView : Nat :=
  if s.group = metadataGroup then s.logView
  else if s.viewLogUnproven then s.logViewProven
  else s.logView

/-- `vsr_state` (2818-2836). -/
def vsrState (checkpointOp checkpointChecksum : Nat) : VsrState :=
  { cluster := s.cluster
    replicaId := s.replica
    replicaCount := s.replicaCount
    view := s.view
    logView := s.persistedLogView
    commitMax := s.commitMax
    checkpointOp, checkpointChecksum
    offsetFrontier := 0
    offsetReserved := 0
    adoptedView := s.adoptedView : VsrState }.withHistoryCertificate s.historyCertificate

/-- `history_certificate_needs_persist` (2957-2968). -/
def historyCertificateNeedsPersist : Bool :=
  match s.historyCertificate, s.historyCertificateDurable with
  | some certificate, some durable =>
    certificate.view != durable.view || decide (certificate.op < durable.op)
  | some _, none => true
  | none, _ => false

/-- `needs_superblock_persist` (3057-3062). -/
def needsSuperblockPersist : Bool :=
  s.view != s.viewDurable || s.persistedLogView != s.logViewDurable ||
    s.historyCertificateNeedsPersist || s.adoptedViewDirty

/-- `mark_superblock_durable` (3076-3086). -/
def markSuperblockDurable (view logView : Nat) : VsrConsensus :=
  { s with viewDurable := view, logViewDurable := logView }

/-- `mark_history_certificate_durable` (2898-2900). -/
def markHistoryCertificateDurable (certificate : Option HistoryCertificate) : VsrConsensus :=
  { s with historyCertificateDurable := certificate }

/-- `mark_adopted_view_durable` (4940-4944). -/
def markAdoptedViewDurable (written : Option AdoptedView) : VsrConsensus :=
  if s.adoptedView = written then { s with adoptedViewDirty := false } else s

/-- What a write captures: the metadata plane writes `vsr_state` with its last checkpoint, a
partition stamps its own offsets over the two words. -/
def capture (checkpointOp checkpointChecksum frontier reserved : Nat) : VsrState :=
  if s.group = metadataGroup then s.vsrState checkpointOp checkpointChecksum
  else { s.vsrState 0 0 with offsetFrontier := frontier, offsetReserved := max reserved frontier }

/-- Partitions keep no certificate. -/
def recordWritten (r : VsrState) : VsrConsensus :=
  let s' := (s.markSuperblockDurable r.view r.logView).markAdoptedViewDurable r.adoptedView
  if s.group = metadataGroup then s'.markHistoryCertificateDurable r.historyCertificate else s'

/-! ## What the transitions do to the gate's cells -/

/-- The cells the gate compares, besides the two views. -/
structure Gate where
  group : Nat
  viewDurable : Nat
  logViewDurable : Nat
  historyCertificate : Option HistoryCertificate
  historyCertificateDurable : Option HistoryCertificate
  adoptedView : Option AdoptedView
  adoptedViewDirty : Bool

def gate : Gate where
  group := s.group
  viewDurable := s.viewDurable
  logViewDurable := s.logViewDurable
  historyCertificate := s.historyCertificate
  historyCertificateDurable := s.historyCertificateDurable
  adoptedView := s.adoptedView
  adoptedViewDirty := s.adoptedViewDirty

variable {s}

/-- No mark moves, the adopted view changes only to a dirty one, and a partition never gains a
certificate. -/
structure KeepsGate (g g' : Gate) : Prop where
  group : g'.group = g.group
  viewDurable : g'.viewDurable = g.viewDurable
  logViewDurable : g'.logViewDurable = g.logViewDurable
  certificateDurable : g'.historyCertificateDurable = g.historyCertificateDurable
  adopted : g'.adoptedView = g.adoptedView ∧ g'.adoptedViewDirty = g.adoptedViewDirty ∨
    g'.adoptedViewDirty = true
  partition : g.group ≠ metadataGroup → g.historyCertificate = none → g'.historyCertificate = none

theorem KeepsGate.refl (g : Gate) : KeepsGate g g :=
  ⟨rfl, rfl, rfl, rfl, .inl ⟨rfl, rfl⟩, fun _ h => h⟩

theorem KeepsGate.trans {g g' g'' : Gate} (h : KeepsGate g g') (h' : KeepsGate g' g'') :
    KeepsGate g g'' where
  group := h'.group.trans h.group
  viewDurable := h'.viewDurable.trans h.viewDurable
  logViewDurable := h'.logViewDurable.trans h.logViewDurable
  certificateDurable := h'.certificateDurable.trans h.certificateDurable
  adopted := by
    obtain ⟨ha', hd'⟩ | hd' := h'.adopted
    · rw [ha', hd']
      exact h.adopted
    · exact .inr hd'
  partition hp hn := h'.partition (h.group ▸ hp) (h.partition hp hn)

/-- No handler takes the view back either. -/
structure Climbs (s t : VsrConsensus) : Prop where
  keeps : KeepsGate s.gate t.gate
  view : s.view ≤ t.view

theorem Climbs.of_eq {s t : VsrConsensus} (hgate : t.gate = s.gate) (hview : t.view = s.view) :
    Climbs s t :=
  ⟨hgate ▸ .refl _, hview.ge⟩

theorem Climbs.after {s s' t : VsrConsensus} (h : Climbs s' t) (hgate : s'.gate = s.gate)
    (hview : s.view ≤ s'.view) : Climbs s t :=
  ⟨hgate ▸ h.keeps, hview.trans h.view⟩

theorem Climbs.trans {s t u : VsrConsensus} (h : Climbs s t) (h' : Climbs t u) : Climbs s u :=
  ⟨h.keeps.trans h'.keeps, h.view.trans h'.view⟩

section

variable (s : VsrConsensus)

theorem climbs_unproveSupersededMerge : Climbs s s.unproveSupersededMerge := by
  unfold unproveSupersededMerge
  split_ifs <;> exact .of_eq rfl rfl

theorem climbs_enterViewChange {newView : Nat} (h : s.view ≤ newView) :
    Climbs s (s.enterViewChange newView).1 :=
  have hmerge := climbs_unproveSupersededMerge
    { s with view := newView, status := .viewChange }.resetViewChangeState
  ⟨hmerge.keeps, h.trans hmerge.view⟩

theorem climbs_startElection : Climbs s s.startElection.1 :=
  climbs_enterViewChange s (Nat.le_succ _)

theorem climbs_followView (view : Nat) : Climbs s (s.followView view).1 := by
  unfold followView
  split_ifs with h
  · exact climbs_enterViewChange s h.le
  · exact .of_eq rfl rfl

theorem climbs_parkMergedLog (merged : MergedLog) : Climbs s (s.parkMergedLog merged) :=
  .of_eq (by simp only [gate, parkMergedLog, reopenViewLogProof, markViewLogUnproven,
    advanceCommitMax]) rfl

theorem climbs_completeOnQuorum : Climbs s s.completeOnQuorum := by
  unfold completeOnQuorum completeViewChangeAsPrimary
  split_ifs
  · split
    · split_ifs
      · exact .of_eq rfl rfl
      · exact climbs_parkMergedLog s _
    · exact .of_eq rfl rfl
  · exact .of_eq rfl rfl

end

variable {t : VsrConsensus} {actions : List VsrAction}

theorem climbs_castVote (h : s.castVote = some (t, actions)) : Climbs s t := by
  unfold castVote at h
  simp only at h
  split_ifs at h
  · split at h <;> cases h
    · exact (climbs_completeOnQuorum _).after rfl le_rfl
  · cases h
    exact .of_eq rfl rfl

theorem climbs_handleStartViewChange {header : StartViewChangeHeader}
    (h : s.handleStartViewChange header = some (t, actions)) : Climbs s t := by
  have hfollow := climbs_followView s header.view
  unfold handleStartViewChange at h
  simp only at h
  split_ifs at h
  · cases h
    exact .of_eq rfl rfl
  · cases h
    exact .of_eq rfl rfl
  · obtain ⟨⟨u, votes⟩, hvote, heq⟩ := Option.map_eq_some_iff.mp h
    cases heq
    exact hfollow.trans ((climbs_castVote hvote).after rfl le_rfl)
  · cases h
    exact hfollow.trans (.of_eq rfl rfl)

theorem climbs_seatVote (s : VsrConsensus) (dvc : StoredDvc) : Climbs s (s.seatVote dvc) := by
  unfold seatVote
  simp only
  split_ifs
  · exact (climbs_completeOnQuorum _).after rfl le_rfl
  · exact .of_eq rfl rfl

theorem climbs_seatOwnVote (h : s.seatOwnVote = some t) : Climbs s t := by
  unfold seatOwnVote at h
  split_ifs at h
  · cases h
    exact .of_eq rfl rfl
  · obtain ⟨own, -, rfl⟩ := Option.map_eq_some_iff.mp h
    exact .of_eq rfl rfl

theorem climbs_countVote {header : DoViewChangeHeader} {suffix : DvcSuffix}
    (h : s.countVote header suffix = some t) : Climbs s t := by
  unfold countVote at h
  split_ifs at h
  · cases h
    exact .of_eq rfl rfl
  · obtain ⟨u, hown, rfl⟩ := Option.map_eq_some_iff.mp h
    exact (climbs_seatOwnVote hown).trans (climbs_seatVote u _)

variable {xxh3 : Bytes → Nat}

theorem climbs_handleDoViewChange {header : DoViewChangeHeader} {body : Bytes}
    (h : s.handleDoViewChange xxh3 header body = some (t, actions)) : Climbs s t := by
  unfold handleDoViewChange at h
  split at h
  · cases h
  split at h
  · cases h
    exact .of_eq rfl rfl
  split at h
  · cases h
    exact .of_eq rfl rfl
  split at h
  · cases h
    exact .of_eq rfl rfl
  obtain ⟨u, hvote, heq⟩ := Option.map_eq_some_iff.mp h
  cases heq
  exact (climbs_followView s header.view).trans (climbs_countVote hvote)

theorem climbs_tryHandleStartView {header : StartViewHeader} {body : Bytes}
    {appliedAt : Nat → Option PrepareHeader} {r : Except StartViewRefusal (List VsrAction)}
    (h : s.tryHandleStartView xxh3 header body appliedAt = some (t, r)) : Climbs s t := by
  rcases tryHandleStartView_cases xxh3 h with
    ⟨-, ⟨n, v, rfl⟩⟩ | ⟨-, -, -, rfl⟩ | ⟨-, suffix, hadopts⟩
  · exact .of_eq rfl rfl
  · exact .of_eq rfl rfl
  · -- an adoption leaves a dirty adopted view
    rw [hadopts.result]
    exact ⟨⟨rfl, rfl, rfl, rfl, .inr rfl, fun _ hn => hn⟩, hadopts.view_le⟩

theorem gate_startView (s : VsrConsensus) (merged : MergedLog) :
    (s.startView merged).gate = { s.gate with
      adoptedView := none
      adoptedViewDirty := s.adoptedView.isSome || s.adoptedViewDirty
      historyCertificate :=
        if s.group = metadataGroup then
          some (.new s.view merged.opHead (merged.headChecksum.getD 0))
        else s.historyCertificate } := by
  unfold startView
  split_ifs <;> simp only [gate, certifyViewLog]

theorem climbs_startView (s : VsrConsensus) (merged : MergedLog) :
    Climbs s (s.startView merged) := by
  refine ⟨?_, ?_⟩
  · rw [gate_startView]
    refine ⟨rfl, rfl, rfl, rfl, ?_, fun hp hn => (if_neg hp).trans hn⟩
    -- taking an adopted view marks it dirty, and without one nothing changes
    cases hadopted : s.adoptedView with
    | none => exact .inl ⟨hadopted.symm, Bool.false_or _⟩
    | some a => exact .inr (Bool.true_or s.adoptedViewDirty)
  · unfold startView
    split_ifs <;> exact le_rfl

theorem climbs_startPendingView (s : VsrConsensus) : Climbs s s.startPendingView.1 := by
  unfold startPendingView
  split_ifs
  · split
    · exact climbs_startView s _
    · exact .of_eq rfl rfl
  · exact .of_eq rfl rfl

theorem climbs_of_certificate {certificate : Option HistoryCertificate}
    (h : t.gate = { s.gate with historyCertificate := certificate }) (hview : t.view = s.view)
    (hpart : s.group ≠ metadataGroup → s.historyCertificate = none → certificate = none) :
    Climbs s t := by
  refine ⟨?_, hview.ge⟩
  rw [h]
  exact ⟨rfl, rfl, rfl, rfl, .inl ⟨rfl, rfl⟩, hpart⟩

section

variable (s : VsrConsensus)

theorem climbs_extendHistoryCertificate (op checksum : Nat) :
    Climbs s (s.extendHistoryCertificate op checksum) := by
  unfold extendHistoryCertificate
  split
  · rename_i certificate hcert
    split_ifs
    · exact climbs_of_certificate rfl rfl fun _ hn => absurd (hcert.symm.trans hn) (by simp)
    · exact .of_eq rfl rfl
  · exact .of_eq rfl rfl

theorem climbs_lowerHistoryCertificate (fromOp op checksum : Nat) :
    Climbs s (s.lowerHistoryCertificate fromOp op checksum) := by
  unfold lowerHistoryCertificate
  split
  · rename_i certificate hcert
    split_ifs
    · exact climbs_of_certificate rfl rfl fun _ hn => absurd (hcert.symm.trans hn) (by simp)
    · exact .of_eq rfl rfl
  · exact .of_eq rfl rfl

/-! The remaining handlers only enter a view change, probe, or move the commit point. -/

theorem climbs_handleNormalHeartbeatTimeout : Climbs s s.handleNormalHeartbeatTimeout.1 := by
  unfold handleNormalHeartbeatTimeout
  split_ifs <;> first | exact .of_eq rfl rfl | exact climbs_startElection s

theorem climbs_handleViewChangeStatusTimeout : Climbs s s.handleViewChangeStatusTimeout.1 := by
  unfold handleViewChangeStatusTimeout
  split_ifs
  · exact .of_eq rfl rfl
  · exact climbs_startElection s

theorem climbs_handleCommitMessageTimeout : Climbs s s.handleCommitMessageTimeout.1 := by
  unfold handleCommitMessageTimeout
  split_ifs <;> exact .of_eq rfl rfl

theorem climbs_handleRequestStartViewTimeout : Climbs s s.handleRequestStartViewTimeout.1 := by
  unfold handleRequestStartViewTimeout
  split
  · unfold probeUnanswered
    simp only
    split_ifs
    · exact (climbs_startElection _).after rfl le_rfl
    · exact .of_eq rfl rfl
  · split_ifs <;> exact .of_eq rfl rfl
  · exact .of_eq rfl rfl

theorem climbs_observeNewerView (view : Nat) : Climbs s (s.observeNewerView view) := by
  unfold observeNewerView
  split_ifs <;> exact .of_eq rfl rfl

end

theorem climbs_handleCommit {header : CommitHeader} {outcome : CommitOutcome}
    (h : s.handleCommit header = some (t, outcome)) : Climbs s t := by
  unfold handleCommit at h
  split_ifs at h <;> cases h <;> first | exact .of_eq rfl rfl | exact climbs_observeNewerView s _

theorem climbs_handleRequestStartView {header : RequestStartViewHeader}
    (h : s.handleRequestStartView header = some (t, actions)) : Climbs s t := by
  unfold handleRequestStartView at h
  split_ifs at h <;> cases h <;> first | exact .of_eq rfl rfl | exact climbs_startElection s

/-! ## Transitions and writes in any order -/

/-- The handlers of a view change and everything that moves the certificate. -/
inductive Handled (xxh3 : Bytes → Nat) (s : VsrConsensus) : VsrConsensus → Prop
  | startViewChange {header t actions}
      (h : s.handleStartViewChange header = some (t, actions)) : Handled xxh3 s t
  | doViewChange {header body t actions}
      (h : s.handleDoViewChange xxh3 header body = some (t, actions)) : Handled xxh3 s t
  | startView {header body appliedAt t r}
      (h : s.tryHandleStartView xxh3 header body appliedAt = some (t, r)) : Handled xxh3 s t
  | startPendingView : Handled xxh3 s s.startPendingView.1
  | normalHeartbeatTimeout : Handled xxh3 s s.handleNormalHeartbeatTimeout.1
  | viewChangeStatusTimeout : Handled xxh3 s s.handleViewChangeStatusTimeout.1
  | commitMessageTimeout : Handled xxh3 s s.handleCommitMessageTimeout.1
  | requestStartViewTimeout : Handled xxh3 s s.handleRequestStartViewTimeout.1
  | commit {header t outcome} (h : s.handleCommit header = some (t, outcome)) : Handled xxh3 s t
  | requestStartView {header t actions}
      (h : s.handleRequestStartView header = some (t, actions)) : Handled xxh3 s t
  | settle : Handled xxh3 s s.settleViewLogProof
  | noteUncertifiedMerge : Handled xxh3 s s.noteUncertifiedMerge
  | fence (op unprovenThrough : Nat) : Handled xxh3 s (s.fenceViewLog op unprovenThrough)
  | certify (op checksum : Nat) (h : s.group = metadataGroup) :
      Handled xxh3 s (s.certifyViewLog op checksum)
  | extend (op checksum : Nat) : Handled xxh3 s (s.extendHistoryCertificate op checksum)
  | lower (fromOp op checksum : Nat) : Handled xxh3 s (s.lowerHistoryCertificate fromOp op checksum)

theorem Handled.climbs (h : Handled xxh3 s t) : Climbs s t := by
  cases h with
  | startViewChange h => exact climbs_handleStartViewChange h
  | doViewChange h => exact climbs_handleDoViewChange h
  | startView h => exact climbs_tryHandleStartView h
  | startPendingView => exact climbs_startPendingView s
  | normalHeartbeatTimeout => exact climbs_handleNormalHeartbeatTimeout s
  | viewChangeStatusTimeout => exact climbs_handleViewChangeStatusTimeout s
  | commitMessageTimeout => exact climbs_handleCommitMessageTimeout s
  | requestStartViewTimeout => exact climbs_handleRequestStartViewTimeout s
  | commit h => exact climbs_handleCommit h
  | requestStartView h => exact climbs_handleRequestStartView h
  | settle => exact .of_eq rfl rfl
  | noteUncertifiedMerge => exact .of_eq rfl rfl
  | fence => exact .of_eq rfl rfl
  | certify op checksum hmeta => exact climbs_of_certificate rfl rfl fun hp => absurd hmeta hp
  | extend => exact climbs_extendHistoryCertificate s ..
  | lower => exact climbs_lowerHistoryCertificate s ..

/-- `other` is any step that leaves the cells of the gate alone, wherever it takes the views:
replication, acks, the commit walk, state transfer, a requested transfer of the primaryship. -/
inductive Transition (xxh3 : Bytes → Nat) (s : VsrConsensus) : VsrConsensus → Prop
  | handled {t : VsrConsensus} (h : Handled xxh3 s t) : Transition xxh3 s t
  | other {t : VsrConsensus} (hgate : t.gate = s.gate) : Transition xxh3 s t

theorem Transition.keepsGate (h : Transition xxh3 s t) : KeepsGate s.gate t.gate := by
  cases h with
  | handled h => exact h.climbs.keeps
  | other hgate => exact hgate ▸ .refl _

structure GateRun where
  consensus : VsrConsensus
  inFlight : Option VsrState
  lastWrite : Option VsrState

def GateRun.start (s : VsrConsensus) : GateRun := ⟨s, none, none⟩

/-- Writes are serialized, so one begins only when none is in flight. -/
inductive GateStep (xxh3 : Bytes → Nat) : GateRun → GateRun → Prop
  | transition {s t f w} (h : Transition xxh3 s t) : GateStep xxh3 ⟨s, f, w⟩ ⟨t, f, w⟩
  | begin {s w} (checkpointOp checkpointChecksum frontier reserved : Nat) : GateStep xxh3 ⟨s, none, w⟩
      ⟨s, some (s.capture checkpointOp checkpointChecksum frontier reserved), w⟩
  | complete {s r w} : GateStep xxh3 ⟨s, some r, w⟩ ⟨s.recordWritten r, none, some r⟩
  | fail {s r w} : GateStep xxh3 ⟨s, some r, w⟩ ⟨s, none, w⟩

structure Agrees (run : GateRun) : Prop where
  partition : run.consensus.group ≠ metadataGroup → run.consensus.historyCertificate = none
  marks : ∀ w, run.lastWrite = some w →
    run.consensus.viewDurable = w.view ∧ run.consensus.logViewDurable = w.logView ∧
      (run.consensus.group = metadataGroup →
        run.consensus.historyCertificateDurable = w.historyCertificate)
  clean : run.consensus.adoptedViewDirty = false →
    (∀ w, run.lastWrite = some w → run.consensus.adoptedView = w.adoptedView) ∧
      ∀ r, run.inFlight = some r → run.consensus.adoptedView = r.adoptedView

theorem adoptedView_capture (s : VsrConsensus) (checkpointOp checkpointChecksum frontier
    reserved : Nat) :
    (s.capture checkpointOp checkpointChecksum frontier reserved).adoptedView = s.adoptedView := by
  unfold capture
  split_ifs <;> rfl

theorem gate_recordWritten (s : VsrConsensus) (r : VsrState) :
    (s.recordWritten r).gate = { s.gate with
      viewDurable := r.view
      logViewDurable := r.logView
      historyCertificateDurable :=
        if s.group = metadataGroup then r.historyCertificate else s.historyCertificateDurable
      adoptedViewDirty := if s.adoptedView = r.adoptedView then false else s.adoptedViewDirty } := by
  unfold recordWritten markAdoptedViewDurable markSuperblockDurable markHistoryCertificateDurable
  simp only
  split_ifs <;> rfl

theorem Agrees.transition {s : VsrConsensus} {f w : Option VsrState} (h : Agrees ⟨s, f, w⟩)
    (ht : Transition xxh3 s t) : Agrees ⟨t, f, w⟩ := by
  have hk := ht.keepsGate
  have hgroup : t.group = s.group := hk.group
  refine ⟨fun hp => ?_, fun r hr => ?_, fun hclean => ?_⟩
  · have hp' : s.group ≠ metadataGroup := hgroup ▸ hp
    exact hk.partition hp' (h.partition hp')
  · obtain ⟨hview, hlog, hcert⟩ := h.marks r hr
    exact ⟨hk.viewDurable.trans hview, hk.logViewDurable.trans hlog,
      fun hm => hk.certificateDurable.trans (hcert (hgroup ▸ hm))⟩
  · -- a clean adopted view was clean before and has not changed since
    rcases hk.adopted with ⟨hadopted, hdirty⟩ | hdirty
    · obtain ⟨hlast, hflight⟩ := h.clean (hdirty.symm.trans hclean)
      exact ⟨fun r hr => hadopted.trans (hlast r hr), fun r hr => hadopted.trans (hflight r hr)⟩
    · exact absurd (hclean.symm.trans hdirty) Bool.false_ne_true

theorem Agrees.complete {s : VsrConsensus} {r : VsrState} {w : Option VsrState}
    (h : Agrees ⟨s, some r, w⟩) : Agrees ⟨s.recordWritten r, none, some r⟩ := by
  have hgate := gate_recordWritten s r
  have hgroup : (s.recordWritten r).group = s.group := congrArg Gate.group hgate
  refine ⟨fun hp => ?_, fun r' hr' => ?_, fun hclean => ⟨fun r' hr' => ?_, fun _ hr' => ?_⟩⟩
  · exact (congrArg Gate.historyCertificate hgate).trans (h.partition (hgroup ▸ hp))
  · cases hr'
    refine ⟨congrArg Gate.viewDurable hgate, congrArg Gate.logViewDurable hgate, fun hm => ?_⟩
    exact (congrArg Gate.historyCertificateDurable hgate).trans (if_pos (hgroup ▸ hm))
  · cases hr'
    have hadopted : (s.recordWritten r).adoptedView = s.adoptedView :=
      congrArg Gate.adoptedView hgate
    have hdirty : (if s.adoptedView = r.adoptedView then false else s.adoptedViewDirty) = false :=
      (congrArg Gate.adoptedViewDirty hgate).symm.trans hclean
    rw [hadopted]
    by_cases hsame : s.adoptedView = r.adoptedView
    · exact hsame
    · rw [if_neg hsame] at hdirty
      exact (h.clean hdirty).2 r rfl
  · cases hr'

/-- **One step** keeps the marks and the adopted view in agreement with the writes. -/
theorem Agrees.step {run run' : GateRun} (h : Agrees run) (hstep : GateStep xxh3 run run') :
    Agrees run' := by
  cases hstep with
  | transition ht => exact h.transition ht
  | begin checkpointOp checkpointChecksum frontier reserved =>
    refine ⟨h.partition, h.marks, fun hclean => ⟨(h.clean hclean).1, fun r hr => ?_⟩⟩
    cases hr
    exact (adoptedView_capture ..).symm
  | complete => exact h.complete
  | fail => exact ⟨h.partition, h.marks, fun hclean => ⟨(h.clean hclean).1, fun _ hr => nomatch hr⟩⟩

theorem agrees_of_run {run run' : GateRun} (hrun : Relation.ReflTransGen (GateStep xxh3) run run')
    (h : Agrees run) : Agrees run' := by
  induction hrun with
  | refl => exact h
  | tail _ hstep ih => exact ih.step hstep

theorem recorded_certificate {s : VsrConsensus} (h : s.historyCertificateNeedsPersist = false)
    {c : HistoryCertificate} (hc : s.historyCertificate = some c) :
    ∃ d, s.historyCertificateDurable = some d ∧ d.view = c.view ∧ d.op ≤ c.op := by
  unfold historyCertificateNeedsPersist at h
  rw [hc] at h
  cases hd : s.historyCertificateDurable with
  | none =>
    rw [hd] at h
    cases h
  | some d =>
    rw [hd] at h
    simp only [Bool.or_eq_false_iff, bne_eq_false_iff_eq, decide_eq_false_iff_not, not_lt] at h
    exact ⟨d, rfl, h.1.symm, h.2⟩

/-- **The superblock gate.** In any interleaving of a replica's transitions with superblock writes,
whenever `needs_superblock_persist` is false the last completed write recorded the current view, the
current persisted `log_view` and the current adopted view, and a held certificate is recorded in its
view, bound at most at its op. -/
theorem superblock_gate_truthful (xxh3 : Bytes → Nat) (s : VsrConsensus)
    (hcert : s.group ≠ metadataGroup → s.historyCertificate = none) (run : GateRun)
    (hrun : Relation.ReflTransGen (GateStep xxh3) (.start s) run)
    (hneeds : run.consensus.needsSuperblockPersist = false) (w : VsrState)
    (hw : run.lastWrite = some w) :
    run.consensus.view = w.view ∧ run.consensus.persistedLogView = w.logView ∧
      run.consensus.adoptedView = w.adoptedView ∧
      ∀ c, run.consensus.historyCertificate = some c →
        ∃ d, w.historyCertificate = some d ∧ d.view = c.view ∧ d.op ≤ c.op := by
  have hstart : Agrees (.start s) :=
    ⟨hcert, fun _ h => (nomatch h), fun _ => ⟨fun _ h => (nomatch h), fun _ h => (nomatch h)⟩⟩
  have hagrees := agrees_of_run hrun hstart
  obtain ⟨hview, hlog, hmark⟩ := hagrees.marks w hw
  unfold needsSuperblockPersist at hneeds
  simp only [Bool.or_eq_false_iff, bne_eq_false_iff_eq] at hneeds
  obtain ⟨⟨⟨hviews, hlogs⟩, hcerts⟩, hclean⟩ := hneeds
  refine ⟨hviews.trans hview, hlogs.trans hlog, (hagrees.clean hclean).1 w hw, fun c hc => ?_⟩
  by_cases hmeta : run.consensus.group = metadataGroup
  · rw [← hmark hmeta]
    exact recorded_certificate hcerts hc
  · exact absurd ((hagrees.partition hmeta).symm.trans hc) (by simp)

def metadataBackup : VsrConsensus :=
  { cluster := 1, replica := 1, replicaCount := 3, group := metadataGroup, status := .normal,
    replica_lt := second_of_three, commit_le := fresh_commit_le }

/-- It starts an election, writes its superblock and is done. -/
theorem superblock_gate_truthful_election :
    let t := metadataBackup.handleNormalHeartbeatTimeout.1
    let w := t.capture 0 0 0 0
    (t.recordWritten w).needsSuperblockPersist = false ∧ (t.recordWritten w).view = w.view ∧
      w.view = 1 := by
  intro t w
  have hneeds : (t.recordWritten w).needsSuperblockPersist = false := by decide
  have hrun : Relation.ReflTransGen (GateStep fun _ => 0) (.start metadataBackup)
      ⟨t.recordWritten w, none, some w⟩ :=
    ((Relation.ReflTransGen.single (.transition (.handled .normalHeartbeatTimeout))).tail
      (.begin 0 0 0 0)).tail .complete
  have hgate := superblock_gate_truthful (fun _ => 0) metadataBackup (fun h => absurd rfl h) _ hrun
    hneeds w rfl
  exact ⟨hneeds, hgate.1, by decide⟩

end VsrConsensus

end Iggy
