import Iggy.Consensus.Dvc
import Mathlib.Data.List.Sort

/-!
# The view-change merge: `merge_view_change`, `merge_dvc_quorum`

The merge walks the ops that may be uncommitted, from the proven commit point upwards, and tallies
at each what the senders say: a nack quorum discards the op and everything above it, an op nobody
can serve stalls the view.

Line numbers are of `consensus/src/dvc_merge.rs`.
-/

namespace Iggy

open DvcQuorumArray

/-- `MergeQuorums` (36-62). -/
structure MergeQuorums where
  viewChange : Nat
  nackPrepare : Nat
  replicaCount : Nat
  prepareQueueCeiling : Nat
  absenceNacks : Bool
  deriving DecidableEq

/-- `VsrConsensus::merge_quorums` (impls.rs:4879-4889). -/
def mergeQuorums (n : Nat) : MergeQuorums where
  viewChange := quorumViewChange n
  nackPrepare := quorumNackPrepare n
  replicaCount := n
  prepareQueueCeiling := prepareQueueCeiling
  absenceNacks := true

/-- `MergedLog` (87-101). -/
structure MergedLog where
  opHead : Nat
  commitMax : Nat
  headers : List PrepareHeader
  committedElsewhere : List PrepareHeader
  deriving DecidableEq

/-- `MergeOutcome` (66-84). -/
inductive MergeOutcome
  | awaitingQuorum
  | awaitingRepair (undecidedOp : Nat)
  | deadlocked (undecidedOp : Nat)
  | ready (log : MergedLog)
  deriving DecidableEq

/-- One sender's contribution to the commit bound (144-149). -/
def commitBound (ceiling : Nat) (dvc : StoredDvc) : Nat :=
  max (max dvc.commit (dvc.op - ceiling)) ((dvc.suffix.headers.head?.map (·.commit)).getD 0)

/-- `merge_commit_max` (141-151). -/
def mergeCommitMax (quorum : DvcQuorumArray) (ceiling : Nat) : Nat :=
  quorum.dvcIter.foldl (fun commitMax dvc => max commitMax (commitBound ceiling dvc)) 0

/-- `log_view_canonical` (158-160). -/
def logViewCanonical (quorum : DvcQuorumArray) : Option Nat :=
  (quorum.dvcIter.map (·.logView)).max?

/-! ## One op -/

/-- `CanonicalAt` (173-180). -/
structure CanonicalAt where
  header : Option PrepareHeader
  conflict : Bool
  abstained : Bool
  deriving DecidableEq

/-- What one canonical sender adds to the answer at `op` (192-205). -/
def canonicalStep (op : Nat) (acc : CanonicalAt) (dvc : StoredDvc) : CanonicalAt :=
  match dvc.suffix.indexOf dvc.op op with
  | none => acc
  | some index =>
    match dvc.suffix.validHeaderAt index with
    | none => { acc with abstained := acc.abstained || !dvc.suffix.nacks index }
    | some candidate =>
      match acc.header with
      | some existing =>
        if existing.checksum ≠ candidate.checksum then { acc with conflict := true } else acc
      | none => { acc with header := some candidate }

variable (senders : List StoredDvc)

def canonicalHeaderAt (op : Nat) : CanonicalAt :=
  senders.foldl (canonicalStep op) ⟨none, false, false⟩

/-- Whether a sender holds the canonical header and offers its body (257-263). -/
def copiesOp (canonical : Option PrepareHeader) (op : Nat) (dvc : StoredDvc) : Bool :=
  match dvc.suffix.indexOf dvc.op op with
  | none => false
  | some index =>
    match dvc.suffix.validHeaderAt index, canonical with
    | some held, some canonical => dvc.suffix.offersBody index && held.checksum == canonical.checksum
    | _, _ => false

/-- Whether a sender counts as nacking `op` (230-300): its log stops below the op (only when absence
counts), it says so, it holds a header above its own commit that it cannot serve, or it is behind
the canonical `log_view` and holds a different prepare or a corpse. -/
def nacksOp (at_ : CanonicalAt) (canonicalLogView op : Nat) (absenceNacks : Bool)
    (dvc : StoredDvc) : Bool :=
  if dvc.op < op then absenceNacks
  else match dvc.suffix.indexOf dvc.op op with
    | none => false
    | some index =>
      if dvc.suffix.nacks index then true
      else match dvc.suffix.validHeaderAt index with
        | none => false
        | some held =>
          if !dvc.suffix.offersBody index && op > dvc.commit then true
          else
            let mayNackImplicitly : Bool := dvc.logView < canonicalLogView
            match at_.header with
            | some canonical => mayNackImplicitly && held.checksum != canonical.checksum
            | none => mayNackImplicitly && !at_.abstained

/-- `OpVerdict` (163-170). -/
structure OpVerdict where
  canonical : Option PrepareHeader
  copies : Nat
  nacks : Nat
  conflict : Bool
  deriving DecidableEq

/-- A sender whose head is below `op` has no slot for it, so it adds no copy. -/
def tallyOp (quorum : DvcQuorumArray) (senders : List StoredDvc) (canonicalLogView op : Nat)
    (absenceNacks : Bool) : OpVerdict :=
  let at_ := canonicalHeaderAt senders op
  { canonical := at_.header
    copies := quorum.dvcIter.countP (copiesOp at_.header op)
    nacks := quorum.dvcIter.countP (nacksOp at_ canonicalLogView op absenceNacks)
    conflict := at_.conflict }

/-! ## The adopted log -/

/-- The descending walk of `canonical_headers`; `child` is the header one op above. -/
def canonicalHeadersFrom (senders : List StoredDvc) (floor : Nat) :
    Nat → Option PrepareHeader → Option (List PrepareHeader)
  | op, child =>
    match canonicalHeaderAt senders op with
    | ⟨some header, false, _⟩ =>
      if child.any fun child => child.parent != header.checksum then none
      else if op ≤ floor then some [header]
      else match op with
        | 0 => some [header]
        | op + 1 => (canonicalHeadersFrom senders floor op (some header)).map (header :: ·)
    | _ => none

/-- `canonical_headers` (313-348). -/
def canonicalHeaders (opHead commitMax : Nat) : Option (List PrepareHeader) :=
  if opHead = 0 then some [] else canonicalHeadersFrom senders (max commitMax 1) opHead none

/-- One slot of a non-canonical sender (377-404); `none` refuses two prepares reported committed at
one op. -/
def claimHeader (installed : List PrepareHeader) (commit : Nat) (claimed : List PrepareHeader)
    (header : PrepareHeader) : Option (List PrepareHeader) :=
  if header.op > commit then some claimed
  else if dvcHeaderKind header ≠ .valid then some claimed
  else if installed.any (·.op == header.op) then some claimed
  else match claimed.find? (·.op == header.op) with
    | some queued => if queued.checksum ≠ header.checksum then none else some claimed
    | none => some (claimed ++ [header])

/-- Whether the entry one op above corroborates a claim (411-440). -/
def corroborated (log : List PrepareHeader) (header : PrepareHeader) : Bool :=
  match log.find? (·.op == header.op + 1) with
  | none => false
  | some child =>
    !(child.parent != header.checksum && child.parent != checksumUnsealed
      && header.checksum != checksumUnsealed)

/-- `committed_elsewhere` (369-442). -/
def committedElsewhere (quorum : DvcQuorumArray) (canonicalLogView : Nat)
    (installed : List PrepareHeader) : Option (List PrepareHeader) := do
  let behind := quorum.dvcIter.filter fun dvc => dvc.logView < canonicalLogView
  let claimed ← behind.foldlM
    (fun claimed dvc => dvc.suffix.headers.foldlM (claimHeader installed dvc.commit) claimed) []
  let descending := claimed.insertionSort fun a b => b.op ≤ a.op
  return descending.foldl
    (fun extra header => if corroborated (installed ++ extra) header then extra ++ [header] else extra) []

/-! ## The merge -/

/-- What an undecided op means: more replicas may report, or none is left. -/
def undecided (received replicaCount op : Nat) : MergeOutcome :=
  if received < replicaCount then .awaitingRepair op else .deadlocked op

/-- `fuel` ops from `op` on are left, the last being `opHeadMax`. The value is the new head, or the
outcome that stops the merge. -/
def mergeScan (quorum : DvcQuorumArray) (quorums : MergeQuorums) (senders : List StoredDvc)
    (canonicalLogView commitMax opHeadMax : Nat) : Nat → Nat → Except MergeOutcome Nat
  | 0, _ => .ok opHeadMax
  | fuel + 1, op =>
    let verdict := tallyOp quorum senders canonicalLogView op quorums.absenceNacks
    if quorums.nackPrepare ≤ verdict.nacks then
      if op ≤ commitMax then .error (.deadlocked op) else .ok (op - 1)
    else if verdict.conflict then .error (undecided quorum.dvcCount quorums.replicaCount op)
    else if verdict.canonical.isNone || verdict.copies == 0 then
      .error (undecided quorum.dvcCount quorums.replicaCount op)
    else mergeScan quorum quorums senders canonicalLogView commitMax opHeadMax fuel (op + 1)

/-- The senders at the canonical `log_view` (531-533). -/
def canonicalSenders (quorum : DvcQuorumArray) (canonicalLogView : Nat) : List StoredDvc :=
  quorum.dvcIter.filter fun dvc => dvc.logView == canonicalLogView

/-- The highest op a canonical sender reports, at least the commit point (540-545). -/
def opHeadMax (commitMax : Nat) : Nat :=
  max ((senders.map (·.op)).max?.getD commitMax) commitMax

/-- `merge_dvc_quorum` (522-651). -/
def mergeDvcQuorum (quorum : DvcQuorumArray) (quorums : MergeQuorums) : MergeOutcome :=
  if quorum.dvcCount < quorums.viewChange then .awaitingQuorum
  else match logViewCanonical quorum with
    | none => .awaitingQuorum
    | some canonicalLogView =>
      let senders := canonicalSenders quorum canonicalLogView
      let commitMax := mergeCommitMax quorum quorums.prepareQueueCeiling
      let opHeadMax := opHeadMax senders commitMax
      if opHeadMax = 0 then
        -- Ops are 1-based: scanning op 0 would read every absent entry as a nack.
        .ready ⟨0, 0, [], []⟩
      else
        let op := max commitMax 1
        match mergeScan quorum quorums senders canonicalLogView commitMax opHeadMax
            (opHeadMax + 1 - op) op with
        | .error outcome => outcome
        | .ok opHead =>
          match canonicalHeaders senders opHead commitMax with
          | none => .deadlocked opHead
          | some headers =>
            match committedElsewhere quorum canonicalLogView headers with
            | none => .deadlocked opHead
            | some committedElsewhere => .ready ⟨opHead, commitMax, headers, committedElsewhere⟩

/-- The array of the trusted votes alone (478-481), recorded one by one. -/
def trustedOnly (quorum : DvcQuorumArray) : DvcQuorumArray :=
  (quorum.dvcIter.filter fun dvc => !dvc.untrustedLog).foldl (fun a dvc => (a.dvcRecord dvc).1)
    DvcQuorumArray.empty

/-- The votes whose senders lost nothing (468). -/
def trustedCount (quorum : DvcQuorumArray) : Nat :=
  quorum.dvcIter.countP fun dvc => !dvc.untrustedLog

/-- `merge_view_change` (466-511). -/
def mergeViewChange (quorum : DvcQuorumArray) (quorums : MergeQuorums) : MergeOutcome :=
  let received := quorum.dvcCount
  let trusted := trustedCount quorum
  let allReplicas := mergeDvcQuorum quorum
    { quorums with viewChange := quorums.replicaCount, absenceNacks := false }
  if quorums.viewChange ≤ trusted then
    let trustedQuorums := { quorums with absenceNacks := true }
    let outcome :=
      if trusted = received then mergeDvcQuorum quorum trustedQuorums
      else mergeDvcQuorum (trustedOnly quorum) trustedQuorums
    match outcome with
    | .ready log => .ready log
    | outcome =>
      if received < quorums.replicaCount || trusted == received then outcome else allReplicas
  else if received < quorums.replicaCount then .awaitingQuorum
  else allReplicas

end Iggy
