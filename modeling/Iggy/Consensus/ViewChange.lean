import Iggy.Consensus.StartView

/-!
# Changing views

The rest of the view-change state machine: entering a view change, voting, merging a quorum of
votes, starting the view, and the timeouts that begin each of them. Every handler takes the replica
to the replica and the actions it returns; `none` is a panic.

Line numbers are of `consensus/src/impls.rs`.
-/

namespace Iggy

structure StartViewChangeHeader where
  replica : Nat
  view : Nat
  group : Nat
  deriving DecidableEq

/-- `DoViewChangeHeader`, with its untrusted-log flag. -/
structure DoViewChangeHeader where
  replica : Nat
  view : Nat
  logView : Nat
  op : Nat
  commit : Nat
  group : Nat
  nackBitset : Nat := 0
  presentBitset : Nat := 0
  untrustedLog : Bool := false
  deriving DecidableEq

/-- `CommitHeader`, without the heartbeat's clock. -/
structure CommitHeader where
  replica : Nat
  view : Nat
  commit : Nat
  group : Nat
  deriving DecidableEq

structure RequestStartViewHeader where
  replica : Nat
  view : Nat
  group : Nat
  incarnation : Nat := 0
  deriving DecidableEq

def MergedLog.headChecksum (log : MergedLog) : Option Nat :=
  log.headers.head?.map PrepareHeader.checksum

/-- `CommitOutcome` (1050-1061). -/
inductive CommitOutcome
  | accepted | advanced | respondStartView
  deriving DecidableEq

namespace VsrConsensus

variable (s : VsrConsensus)

/-! ## What a replica may claim -/

/-- `log_view_claim` (2783-2799). -/
def logViewClaim : Nat :=
  let proven :=
    if s.group = metadataGroup then (s.historyCertificate.map (·.view)).getD 0
    else if s.viewLogUnproven then s.logViewProven
    else s.logView
  s.adoptedView.elim proven fun adopted => max proven adopted.view

/-- `dvc_commit` (3852-3855). -/
def dvcCommit : Nat := min s.commitMax s.sequence

/-- `local_dvc_suffix_tag` (3011-3018). -/
def localDvcSuffixTag : Nat × Nat × Nat := (s.sequence, s.dvcCommit, s.journalMutations)

/-- `local_dvc_suffix` (3026-3034). -/
def localDvcSuffix : DvcSuffix :=
  match s.dvcSnapshot with
  | some (op, commit, mutations, suffix) =>
    if (op, commit, mutations) = s.localDvcSuffixTag then suffix else DvcSuffix.empty
  | none => DvcSuffix.empty

/-- `set_local_dvc_suffix` (2979-2982). -/
def setLocalDvcSuffix (suffix : DvcSuffix) : VsrConsensus :=
  { s with dvcSnapshot := some (s.sequence, s.dvcCommit, s.journalMutations, suffix) }

def invalidateLocalDvcSuffix : VsrConsensus := { s with dvcSnapshot := none }

/-- `is_primary_elect` (5141-5143). -/
def isPrimaryElect : Bool := s.doViewChangeQuorum && s.pendingViewLog.isSome

/-! ## The history certificate -/

/-- `certify_view_log` (2856-2863). -/
def certifyViewLog (op checksum : Nat) : VsrConsensus :=
  { s with
    historyCertificate := some (.new s.logView op checksum)
    recoveryElectionAllowed := true }

/-- `extend_history_certificate` (2867-2880). -/
def extendHistoryCertificate (op checksum : Nat) : VsrConsensus :=
  match s.historyCertificate with
  | some certificate =>
    if certificate.view = s.logView ∧ certificate.op < op ∧ s.status = .normal ∧
        s.viewLogUnproven = false then
      { s with historyCertificate := some (.new certificate.view op checksum) }
    else s
  | none => s

/-- `lower_history_certificate` (2885-2895). -/
def lowerHistoryCertificate (fromOp op checksum : Nat) : VsrConsensus :=
  match s.historyCertificate with
  | some certificate =>
    if fromOp ≤ certificate.op then
      { s with historyCertificate := some (.new certificate.view op checksum) }
    else s
  | none => s

/-! ## The proof of the view's log -/

/-- `settle_view_log_proof` (4992-5001). -/
def settleViewLogProof : VsrConsensus :=
  { s with
    viewLogUnproven := false
    untrustedLog := false
    viewLogMerged := s.isPrimaryElect
    viewLogMergeUncertified := false
    logViewProven := if s.group ≠ metadataGroup then s.logView else s.logViewProven
    dvcSnapshot := none }

/-- `note_uncertified_merge` (5006-5009). -/
def noteUncertifiedMerge : VsrConsensus :=
  { s with viewLogMergeUncertified := true, dvcSnapshot := none }

/-- `mark_view_log_unproven` (5013-5018). -/
def markViewLogUnproven : VsrConsensus :=
  { s with
    logViewProven :=
      if s.group ≠ metadataGroup ∧ s.viewLogUnproven = false then s.logView else s.logViewProven
    viewLogUnproven := true }

/-- `reopen_view_log_proof` (5022-5026). -/
def reopenViewLogProof : VsrConsensus :=
  { s.markViewLogUnproven with
    viewLogUnprovenThrough := 2 ^ 64 - 1
    viewLogMissingOp := none }

/-- `uncertified_merge_settled` (5032-5037). -/
def uncertifiedMergeSettled : Bool :=
  s.group ≠ metadataGroup && s.viewLogMerged && s.viewLogMergeUncertified && !s.viewLogUnproven

/-- `unprove_superseded_merge` (5050-5055). -/
def unproveSupersededMerge : VsrConsensus :=
  if s.uncertifiedMergeSettled then { s with viewLogMerged := false }.reopenViewLogProof else s

/-- `fence_view_log` (5057-5062). -/
def fenceViewLog (op unprovenThrough : Nat) : VsrConsensus :=
  { s.markViewLogUnproven with
    viewLogUnprovenThrough := unprovenThrough
    viewLogMissingOp := some op
    dvcSnapshot := none }

/-! ## Entering a view change -/

/-- `enter_view_change` (3375-3421). -/
def enterViewChange (newView : Nat) : VsrConsensus × List VsrAction :=
  let s' := { s with view := newView, status := .viewChange }
    |>.resetViewChangeState |>.unproveSupersededMerge
  ({ s' with
      sentOwnStartViewChange := true
      startViewChangeFromAllReplicas := insert s.replica s'.startViewChangeFromAllReplicas },
    [.sendStartViewChange newView s.group])

/-- `start_election` (3357-3359). -/
def startElection : VsrConsensus × List VsrAction := s.enterViewChange (s.view + 1)

/-- `begin_view_probe` (4058-4072), without its timers. -/
def beginViewProbe : VsrConsensus := { s with status := .recovering, probeAttempts := 0 }

/-- `observe_newer_view` (4089-4093). -/
def observeNewerView (view : Nat) : VsrConsensus :=
  if s.observedNewerView < view then { s with observedNewerView := view } else s

/-! ## Voting -/

/-- The vote this replica seats for itself; `none` past the end of the array. -/
def ownDvc : Option StoredDvc :=
  if h : s.replica < replicasMax then
    some ⟨⟨s.replica, h⟩, s.logViewClaim, s.sequence, s.dvcCommit, s.localDvcSuffix,
      s.untrustedLog⟩
  else none

/-- `build_do_view_change` (3858-3869). -/
def buildDoViewChange (target : Nat) : VsrAction :=
  .sendDoViewChange s.view target s.logViewClaim s.sequence s.dvcCommit s.group s.localDvcSuffix
    s.untrustedLog

/-- `empty_do_view_change` (3886-3912). -/
def emptyDoViewChange (view : Nat) : Option VsrAction :=
  if s.recoveredLogComplete ∨ s.recoveryElectionAllowed ∨ view < s.view ∨
      s.primaryIndex view = s.replica then none
  else some (.sendDoViewChange view (s.primaryIndex view) 0 0 0 s.group DvcSuffix.empty true)

variable (merged : MergedLog)

/-- The state `complete_view_change_as_primary` parks a merge in (4826-4856). -/
def parkMergedLog : VsrConsensus :=
  let s' := ({ s with doViewChangeQuorum := true }.advanceCommitMax merged.commitMax)
  { { s' with pendingViewLog := some merged }.reopenViewLogProof with
    pipeline := LocalPipeline.empty }

/-- `complete_view_change_as_primary` (4765-4874), which sends nothing yet. -/
def completeViewChangeAsPrimary : VsrConsensus :=
  match mergeViewChange s.doViewChangeFromAllReplicas (mergeQuorums s.replicaCount) with
  | .ready merged =>
    if s.prepareQueueMax < merged.opHead - merged.commitMax then s else s.parkMergedLog merged
  | _ => s

def completeOnQuorum : VsrConsensus :=
  if s.doViewChangeQuorum = false ∧
      quorumViewChange s.replicaCount ≤ s.doViewChangeFromAllReplicas.dvcCount then
    s.completeViewChangeAsPrimary
  else s

/-- `svc_count_excluding_self` (3094-3102). -/
def svcCountExcludingSelf : Nat :=
  (s.startViewChangeFromAllReplicas.erase s.replica).card

/-- The vote of `handle_start_view_change` (3785-3827). -/
def castVote : Option (VsrConsensus × List VsrAction) :=
  let s' := { s with sentOwnDoViewChange := true }
  let candidate := s.primaryIndex s.view
  let vote := s'.buildDoViewChange candidate
  if candidate = s.replica then
    match s'.ownDvc with
    | none => none
    | some own =>
      some ({ s' with
        doViewChangeFromAllReplicas :=
          (s'.doViewChangeFromAllReplicas.dvcRecord own).1 }.completeOnQuorum, [vote])
  else some (s', [vote])

def followView (view : Nat) : VsrConsensus × List VsrAction :=
  if s.view < view then s.enterViewChange view else (s, [])

/-- `handle_start_view_change` (3743-3831). -/
def handleStartViewChange (header : StartViewChangeHeader) :
    Option (VsrConsensus × List VsrAction) :=
  if header.group ≠ s.group then none
  else if s.status = .recovering then some (s, (s.emptyDoViewChange header.view).toList)
  else if header.view < s.view then some (s, [])
  else
    let (s', actions) := s.followView header.view
    let s'' := { s' with
      startViewChangeFromAllReplicas := insert header.replica s'.startViewChangeFromAllReplicas }
    if s''.sentOwnDoViewChange = false ∧ maxFaulty s.replicaCount ≤ s''.svcCountExcludingSelf then
      s''.castVote.map fun (t, votes) => (t, actions ++ votes)
    else some (s'', actions)

def seatOwnVote : Option VsrConsensus :=
  if s.sentOwnDoViewChange then some s
  else s.ownDvc.map fun own =>
    { s with
      sentOwnDoViewChange := true
      doViewChangeFromAllReplicas := (s.doViewChangeFromAllReplicas.dvcRecord own).1 }

/-- Seat a peer's vote and merge, unless it is a retransmit (4024-4042). -/
def seatVote (dvc : StoredDvc) : VsrConsensus :=
  let (votes, changed) := s.doViewChangeFromAllReplicas.dvcRecord dvc
  if changed then { s with doViewChangeFromAllReplicas := votes }.completeOnQuorum else s

/-- What the candidate of the view does with a vote (3995-4042). -/
def countVote (header : DoViewChangeHeader) (suffix : DvcSuffix) : Option VsrConsensus :=
  if s.isPrimary = false ∨ s.status ≠ .viewChange then some s
  else if h : header.replica < replicasMax then
    s.seatOwnVote.map (·.seatVote ⟨⟨header.replica, h⟩, header.logView, header.op, header.commit,
      suffix, header.untrustedLog⟩)
  else none

/-- `handle_do_view_change` (3949-4045). -/
def handleDoViewChange (xxh3 : Bytes → Nat) (header : DoViewChangeHeader)
    (suffixBody : Bytes) : Option (VsrConsensus × List VsrAction) :=
  if header.group ≠ s.group then none
  else if s.status = .recovering then some (s, [])
  else match dvcSuffixDecode xxh3 suffixBody header.op header.nackBitset header.presentBitset with
    | .error _ => some (s, [])
    | .ok suffix =>
      if header.view < s.view then some (s, [])
      else
        let (s', actions) := s.followView header.view
        (s'.countVote header suffix).map (·, actions)

/-! ## Starting the view -/

/-- The state `start_pending_view` leaves (5232-5294). -/
def startView : VsrConsensus :=
  let s' := { s with
    pendingViewLog := none
    adoptedView := none
    adoptedViewDirty := s.adoptedView.isSome || s.adoptedViewDirty
    doViewChangeFromAllReplicas := DvcQuorumArray.empty
    dvcSnapshot := none
    status := .normal
    rejoinedOnRecoveredLog := false
    cededPrimaryship := false
    untrustedLog := false
    sequence := merged.opHead
    viewStartHead := merged.opHead
    recoveryBarrier := s.redecideRecoveryBarrier merged.opHead
    lastPrepareChecksum := merged.headChecksum.getD s.lastPrepareChecksum
    lastTimestamp := (merged.headers.map PrepareHeader.timestamp).foldl max s.lastTimestamp
    logView := s.view
    viewLogMerged := false }
  if s.group = metadataGroup then
    s'.certifyViewLog merged.opHead (merged.headChecksum.getD 0)
  else { s' with logViewProven := s.view }

/-- The actions of a started view (5319-5357). -/
def startViewActions : List VsrAction :=
  let rebuildAfter := max s.commitMin merged.commitMax
  [.sendStartView s.view merged.opHead merged.commitMax 0 none s.group merged.headers,
    .commitJournal] ++
    if rebuildAfter < merged.opHead then [.rebuildPipeline (rebuildAfter + 1) merged.opHead] else []

/-- `start_pending_view` (5224-5358). -/
def startPendingView : VsrConsensus × List VsrAction :=
  if s.doViewChangeQuorum then
    match s.pendingViewLog with
    | some merged => (s.startView merged, s.startViewActions merged)
    | none => (s, [])
  else (s, [])

/-! ## Timeouts -/

/-- `handle_normal_heartbeat_timeout` (3306-3354). -/
def handleNormalHeartbeatTimeout : VsrConsensus × List VsrAction :=
  if s.status = .recovering then (s, [])
  else if s.isPrimary ∧ s.cededPrimaryship = false then (s, [])
  else if s.status = .viewChange then (s, [])
  else if s.view < s.observedNewerView then (s.beginViewProbe, [])
  else s.startElection

/-- `handle_view_change_status_timeout` (3485-3498). -/
def handleViewChangeStatusTimeout : VsrConsensus × List VsrAction :=
  if s.status ≠ .viewChange then (s, []) else s.enterViewChange (s.view + 1)

/-- `handle_commit_message_timeout` (3638-3666). -/
def handleCommitMessageTimeout : VsrConsensus × List VsrAction :=
  if s.isPrimary = false ∨ s.status ≠ .normal then (s, [])
  else if s.view < s.observedNewerView then (s.beginViewProbe, [])
  else (s, [.sendCommit s.view s.commitMin s.group])

/-- A recovering replica's probe went unanswered (3215-3267). -/
def probeUnanswered : VsrConsensus × List VsrAction :=
  let attempts := min (s.probeAttempts + 1) (2 ^ 32 - 1)
  if s.probeAttemptsMax ≤ attempts ∧ s.recoveryElectionAllowed then
    { s with
      probeAttempts := 0
      stateTransferStage := .idle
      untrustedLog :=
        s.untrustedLog || s.rejoinedOnRecoveredLog && !s.recoveredLogComplete }.startElection
  else ({ s with probeAttempts := attempts }, [.sendRequestStartView s.view s.group])

/-- The `RequestStartViewMessage` timeout of `tick_with_history_fence` (3203-3292). -/
def handleRequestStartViewTimeout : VsrConsensus × List VsrAction :=
  match s.status with
  | .recovering => s.probeUnanswered
  | .viewChange =>
    if s.primaryIndex s.view ≠ s.replica then (s, [.sendRequestStartView s.view s.group])
    else (s, [])
  | .normal => (s, [])

/-- `handle_start_view_change_message_timeout` (3425-3446). -/
def handleStartViewChangeMessageTimeout : List VsrAction :=
  if s.sentOwnStartViewChange then [.sendStartViewChange s.view s.group] else []

/-- `handle_do_view_change_message_timeout` (3449-3482). -/
def handleDoViewChangeMessageTimeout : List VsrAction :=
  if s.status ≠ .viewChange ∨ s.sentOwnDoViewChange = false ∨
      s.isPrimary ∧ s.doViewChangeQuorum then []
  else [s.buildDoViewChange (s.primaryIndex s.view)]

/-! ## Commit points and probes -/

/-- `handle_commit` (4684-4749). -/
def handleCommit (header : CommitHeader) : Option (VsrConsensus × CommitOutcome) :=
  if header.group ≠ s.group then none
  else if s.isPrimary then
    if s.status = .normal ∧ header.view < s.view ∧ header.replica = s.primaryIndex header.view then
      some (s, .respondStartView)
    else if s.view < header.view then some (s.observeNewerView header.view, .accepted)
    else some (s, .accepted)
  else if s.status ≠ .normal then some (s, .accepted)
  else if header.view ≠ s.view then
    if s.view < header.view then some (s.observeNewerView header.view, .accepted)
    else some (s, .accepted)
  else if header.replica ≠ s.primaryIndex header.view then some (s, .accepted)
  else some (s.advanceCommitMax header.commit,
    if s.commitMax < header.commit then .advanced else .accepted)

/-- `handle_request_start_view` (4178-4235). -/
def handleRequestStartView (header : RequestStartViewHeader) :
    Option (VsrConsensus × List VsrAction) :=
  if header.group ≠ s.group then none
  else if s.status ≠ .normal ∨ header.replica = s.replica then some (s, [])
  else if s.primaryIndex s.view = header.replica then
    if header.view = s.view then some s.startElection else some (s, [])
  else if s.isPrimary = false ∨ s.cededPrimaryship ∨ s.logView ≠ s.view then some (s, [])
  else some (s, [.sendStartView s.view s.sequence s.dvcCommit header.incarnation
    (some header.replica) s.group s.localDvcSuffix.headers])

end VsrConsensus

end Iggy
