import Iggy.Consensus.Merge
import Iggy.Consensus.Pipeline
import Iggy.Consensus.Suffix

/-!
# One replica of a consensus group: `VsrConsensus`

Source: impls.rs:1281-1536, vsr_state.rs:133-200; other line numbers are of impls.rs.

Every `Cell` of the source is a field; a method that writes cells is a function to the new record.
`replica < replica_count` is asserted at construction and neither changes, `commit_max ≥ commit_min`
at every advance, so both are fields. Left out are the message bus, the loopback and request queues,
the timers, the clock and what is kept for logs and metrics, which no transition here reads.
-/

namespace Iggy

def metadataGroup : Nat := 2 ^ 63

/-- `Status` (1001-1006). -/
inductive Status
  | normal | viewChange | recovering
  deriving DecidableEq

/-- `StateTransferStage` (1015-1029). -/
inductive StateTransferStage
  | idle | awaitingTarget | fetching | installing
  deriving DecidableEq

/-- `AdoptedView` (vsr_state.rs:135-143). -/
structure AdoptedView where
  view : Nat
  group : Nat
  partitionIncarnation : Nat
  opHead : Nat
  commitMax : Nat
  headers : List PrepareHeader
  deriving DecidableEq

namespace AdoptedView

/-- `merged_log` (vsr_state.rs:146-154). -/
def mergedLog (a : AdoptedView) : MergedLog :=
  { opHead := a.opHead, commitMax := a.commitMax, headers := a.headers, committedElsewhere := [] }

/-- A blank, or a header of this cluster, group and incarnation. -/
def Belongs (a : AdoptedView) (cluster : Nat) (h : PrepareHeader) : Prop :=
  dvcHeaderKind h = .valid →
    h.cluster = cluster ∧ h.group = a.group ∧ h.partitionIncarnation = a.partitionIncarnation

instance (a : AdoptedView) (cluster : Nat) (h : PrepareHeader) : Decidable (a.Belongs cluster h) :=
  inferInstanceAs (Decidable (_ → _))

/-- `validate` (vsr_state.rs:184-199), whose only error is `InvalidAdoptedView`. -/
def validate (xxh3 : Bytes → Nat) (a : AdoptedView) (cluster view : Nat) : Bool :=
  if view < a.view ∨ a.opHead < a.commitMax then false
  else match dvcSuffixDecode xxh3 (encodePrepareHeaders a.headers) a.opHead 0 0 with
    | .error _ => false
    | .ok _ => decide (∀ h ∈ a.headers, a.Belongs cluster h)

theorem validate_eq_true {xxh3 : Bytes → Nat} {a : AdoptedView} {cluster view : Nat}
    (h : a.validate xxh3 cluster view = true) :
    a.view ≤ view ∧ a.commitMax ≤ a.opHead ∧ ∀ x ∈ a.headers, a.Belongs cluster x := by
  unfold validate at h
  split_ifs at h with hbound
  rw [not_or, Nat.not_lt, not_lt] at hbound
  split at h
  · cases h
  · exact ⟨hbound.1, hbound.2, of_decide_eq_true h⟩

end AdoptedView

/-- `HistoryCertificate` (vsr_state.rs:215-225): the newest view whose log the WAL holds, bound to
its head. -/
structure HistoryCertificate where
  view : Nat
  op : Nat
  checksum : BitVec 32
  deriving DecidableEq

/-- It keeps the low 32 bits of the checksum. -/
def HistoryCertificate.new (view op checksum : Nat) : HistoryCertificate :=
  ⟨view, op, BitVec.ofNat 32 checksum⟩

/-- The certificate of a replica with no history (1865): partitions keep none. -/
def emptyHistory (group : Nat) : Option HistoryCertificate :=
  if group = metadataGroup then some (.new 0 0 0) else none

/-- `VsrAction` (1065-1150), without the two of the prepare timeout, which only resend. -/
inductive VsrAction
  | sendStartViewChange (view group : Nat)
  | sendDoViewChange (view target logView op commit group : Nat) (suffix : DvcSuffix)
      (untrustedLog : Bool)
  | sendRequestStartView (view group : Nat)
  | sendStartView (view op commit incarnation : Nat) (target : Option Nat) (group : Nat)
      (suffix : List PrepareHeader)
  | sendPrepareOk (view fromOp toOp target group : Nat)
  | rebuildPipeline (fromOp toOp : Nat)
  | commitJournal
  | sendCommit (view commit group : Nat)
  deriving DecidableEq

/-- `VsrConsensus`; the defaults are those of `with_clock` (1833-1930). -/
structure VsrConsensus where
  cluster : Nat
  replica : Nat
  replicaCount : Nat
  group : Nat
  partitionIncarnation : Nat := 0
  view : Nat := 0
  logView : Nat := 0
  viewDurable : Nat := 0
  logViewDurable : Nat := 0
  incarnation : Nat := 0
  recoveryBarrier : Nat := 0
  viewStartHead : Nat := 0
  cededPrimaryship : Bool := false
  status : Status := .recovering
  stateTransferStage : StateTransferStage := .idle
  observedNewerView : Nat := 0
  commitMin : Nat := 0
  commitMax : Nat := 0
  /-- The head op. -/
  sequence : Nat := 0
  lastTimestamp : Nat := 0
  lastPrepareChecksum : Nat := 0
  pipeline : LocalPipeline := LocalPipeline.empty
  prepareQueueMax : Nat := 32
  startViewChangeFromAllReplicas : Finset Nat := ∅
  probeAttempts : Nat := 0
  probeAttemptsMax : Nat := 5
  recoveryElectionAllowed : Bool := true
  recoveredLogComplete : Bool := true
  rejoinedOnRecoveredLog : Bool := false
  untrustedLog : Bool := false
  /-- `local_dvc_suffix`: the suffix with the head, commit and journal counter it was read at. -/
  dvcSnapshot : Option (Nat × Nat × Nat × DvcSuffix) := none
  journalMutations : Nat := 0
  pendingViewLog : Option MergedLog := none
  adoptedView : Option AdoptedView := none
  adoptedViewDirty : Bool := false
  viewLogUnproven : Bool := false
  logViewProven : Nat := 0
  viewLogMerged : Bool := false
  viewLogMergeUncertified : Bool := false
  viewLogUnprovenThrough : Nat := 2 ^ 64 - 1
  viewLogMissingOp : Option Nat := none
  historyCertificate : Option HistoryCertificate := emptyHistory group
  historyCertificateDurable : Option HistoryCertificate := emptyHistory group
  doViewChangeFromAllReplicas : DvcQuorumArray := DvcQuorumArray.empty
  doViewChangeQuorum : Bool := false
  sentOwnStartViewChange : Bool := false
  sentOwnDoViewChange : Bool := false
  appliedLogContradictions : Nat := 0
  contradictionReportedView : Option Nat := none
  replica_lt : replica < replicaCount := by decide
  commit_le : commitMin ≤ commitMax := by decide

namespace VsrConsensus

/-- The bounds a fresh replica meets. -/
theorem fresh_commit_le : 0 ≤ 0 := Nat.le_refl 0

theorem second_of_three : 1 < 3 := by decide

variable (s : VsrConsensus)

/-- `primary_index` (2096). -/
def primaryIndex (view : Nat) : Nat := view % s.replicaCount

/-- `is_primary` (2101). -/
def isPrimary : Bool := s.primaryIndex s.view == s.replica

def isTransferring : Bool := s.stateTransferStage ≠ .idle

def quorum : Nat := quorumReplication s.replicaCount

theorem quorum_pos : 1 ≤ s.quorum :=
  quorumReplication_pos (Nat.lt_of_le_of_lt (Nat.zero_le _) s.replica_lt)

/-- `advance_commit_max` (2156-2178) only raises, so its assert cannot fire. -/
def advanceCommitMax (commit : Nat) : VsrConsensus :=
  { s with
    commitMax := max s.commitMax commit
    commit_le := s.commit_le.trans (le_max_left ..) }

/-- `reset_view_change_state` (3130-3144). -/
def resetViewChangeState : VsrConsensus :=
  { s with
    startViewChangeFromAllReplicas := ∅
    doViewChangeFromAllReplicas := DvcQuorumArray.empty
    doViewChangeQuorum := false
    sentOwnStartViewChange := false
    sentOwnDoViewChange := false
    pendingViewLog := none }

/-- What `redecide_recovery_barrier` (2337-2343) sets the barrier to. -/
def redecideRecoveryBarrier (head : Nat) : Nat :=
  if s.recoveryBarrier = 0 ∨ head = 0 then s.recoveryBarrier else min s.recoveryBarrier head

end VsrConsensus

end Iggy
