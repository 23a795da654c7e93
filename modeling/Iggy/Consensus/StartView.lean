import Iggy.Consensus.Replica
import Mathlib.Logic.Relation

/-!
# Adopting a view: `try_handle_start_view`

A `StartView` passes eight guards before the replica takes over its log. `tryHandleStartView_cases`
says once what the handler can do: nothing beyond the contradiction counters, raise the commit
watermark, or adopt.

Line numbers are of `consensus/src/impls.rs`.
-/

namespace Iggy

/-- The fields of `StartViewHeader` (header.rs:1789-1818) the handler reads. -/
structure StartViewHeader where
  replica : Nat
  view : Nat
  op : Nat
  commit : Nat
  group : Nat
  incarnation : Nat := 0
  deriving DecidableEq

/-- `StartViewRefusal` (1548-1556). -/
inductive StartViewRefusal
  | invalidEvidence
  | contradictsAppliedLog (log : MergedLog)
  deriving DecidableEq

/-- The applied prepare a header contradicts (4324-4337): both are sealed and their
checksums differ. -/
def contradictionOf (appliedAt : Nat → Option PrepareHeader) (header : PrepareHeader) :
    Option PrepareHeader :=
  (appliedAt header.op).filter fun applied =>
    applied.checksum ≠ header.checksum ∧ applied.checksum ≠ checksumUnsealed ∧
      header.checksum ≠ checksumUnsealed

namespace VsrConsensus

variable (xxh3 : Bytes → Nat) (s : VsrConsensus)

def contradicted (headers : List PrepareHeader) (appliedAt : Nat → Option PrepareHeader) : Bool :=
  (headers.filter fun h => h.op ≤ s.commitMin ∧ dvcHeaderKind h = .valid).any fun h =>
    (contradictionOf appliedAt h).isSome

/-- Count a contradiction once per newer view (4341-4350). -/
def countContradiction (view : Nat) : VsrConsensus :=
  if s.contradictionReportedView.any (view ≤ ·) then s
  else { s with
    contradictionReportedView := some view
    appliedLogContradictions := min (s.appliedLogContradictions + 1) (2 ^ 64 - 1) }

/-- `contradicts_applied_log` (4315-4367). -/
def contradictsAppliedLog (view : Nat) (headers : List PrepareHeader)
    (appliedAt : Nat → Option PrepareHeader) : VsrConsensus × Bool :=
  if s.contradicted headers appliedAt then (s.countContradiction view, true) else (s, false)

section

variable (header : StartViewHeader)
include header

/-- Whether the adopted log still has to be proven against the journal (4592-4594). -/
def needsReconciliation : Bool :=
  s.viewLogUnproven || s.status ≠ .normal || s.logView ≠ header.view

/-- The state after adopting (4591-4627): each cell is written once, except `pending_view_log`,
which is reset and then parked unless there is nothing to park. -/
def adoptStartView (adopted : AdoptedView) : VsrConsensus :=
  { s.resetViewChangeState with
    probeAttempts := 0
    logViewProven :=
      if s.group ≠ metadataGroup ∧ s.viewLogUnproven = false then s.logView else s.logViewProven
    view := header.view
    logView := header.view
    status := .normal
    rejoinedOnRecoveredLog := false
    cededPrimaryship := false
    untrustedLog := if s.needsReconciliation header then s.untrustedLog else false
    commitMax := max s.commitMax header.commit
    commit_le := s.commit_le.trans (le_max_left ..)
    viewLogUnproven := s.needsReconciliation header
    viewLogUnprovenThrough := 2 ^ 64 - 1
    viewLogMissingOp := none
    pipeline := LocalPipeline.empty
    pendingViewLog :=
      if adopted.headers = [] ∧ s.needsReconciliation header = false then none
      else some adopted.mergedLog
    adoptedView := some adopted
    adoptedViewDirty := true
    sequence := header.op
    recoveryBarrier := s.redecideRecoveryBarrier header.op }

/-- The actions of an adoption (4650-4670). -/
def adoptActions : List VsrAction :=
  .commitJournal ::
    if header.commit < header.op then
      [.sendPrepareOk header.view (header.commit + 1) header.op header.replica s.group]
    else []

/-- The view a `StartView` asks this replica to adopt (4555-4562). -/
def adoptedOf (suffix : DvcSuffix) : AdoptedView where
  view := header.view
  group := s.group
  partitionIncarnation := s.partitionIncarnation
  opHead := header.op
  commitMax := header.commit
  headers := suffix.headers

/-- A `StartView` a recovering replica takes for one addressed to an earlier incarnation
(4480-4485). -/
def StaleIncarnation : Prop :=
  s.status = .recovering ∧ s.incarnation ≠ 0 ∧ header.incarnation ≠ 0 ∧ header.view ≤ s.view ∧
    header.op < s.sequence ∧ header.incarnation ≠ s.incarnation

end

instance (s : VsrConsensus) (header : StartViewHeader) : Decidable (s.StaleIncarnation header) :=
  inferInstanceAs (Decidable (_ ∧ _))

/-- A `Normal` replica that already holds the announced log (4506-4509). -/
def HoldsAnnounced (header : StartViewHeader) : Prop :=
  s.status = .normal ∧ s.viewLogUnproven = false ∧ header.view = s.logView ∧
    header.op ≤ s.sequence

instance (s : VsrConsensus) (header : StartViewHeader) : Decidable (s.HoldsAnnounced header) :=
  inferInstanceAs (Decidable (_ ∧ _))

/-- The evidence checks and the adoption (4548-4670). -/
def adoptOrRefuse (header : StartViewHeader) (suffixBody : Bytes)
    (appliedAt : Nat → Option PrepareHeader) :
    VsrConsensus × Except StartViewRefusal (List VsrAction) :=
  match dvcSuffixDecode xxh3 suffixBody header.op 0 0 with
  | .error _ => (s, .error .invalidEvidence)
  | .ok suffix =>
    let adopted := s.adoptedOf header suffix
    if adopted.validate xxh3 s.cluster header.view = false then (s, .error .invalidEvidence)
    else
      let (s', contradiction) := s.contradictsAppliedLog header.view suffix.headers appliedAt
      if contradiction then (s', .error (.contradictsAppliedLog adopted.mergedLog))
      else (s'.adoptStartView header adopted, .ok (s'.adoptActions header))

/-- `try_handle_start_view` (4443-4671); `none` where it panics. -/
def tryHandleStartView (header : StartViewHeader) (suffixBody : Bytes)
    (appliedAt : Nat → Option PrepareHeader) :
    Option (VsrConsensus × Except StartViewRefusal (List VsrAction)) :=
  if header.group ≠ s.group then none
  else if s.primaryIndex header.view ≠ header.replica then some (s, .ok [])
  else if header.view < s.view then some (s, .ok [])
  else if s.StaleIncarnation header then some (s, .ok [])
  else if s.HoldsAnnounced header then
    if s.commitMax < header.commit then
      some (s.advanceCommitMax header.commit, .ok [.commitJournal])
    else some (s, .ok [])
  else if header.op < s.commitMax then some (s, .ok [])
  else if header.replica = s.replica then some (s, .ok [])
  else some (s.adoptOrRefuse xxh3 header suffixBody appliedAt)

/-! ## What the handler can do -/

def OnlyCounters (s t : VsrConsensus) : Prop :=
  ∃ n v, t = { s with appliedLogContradictions := n, contradictionReportedView := v }

theorem onlyCounters_refl : OnlyCounters s s := ⟨_, _, rfl⟩

theorem onlyCounters_countContradiction (view : Nat) :
    OnlyCounters s (s.countContradiction view) := by
  unfold countContradiction
  split_ifs
  · exact onlyCounters_refl s
  · exact ⟨_, _, rfl⟩

variable {s : VsrConsensus} {appliedAt : Nat → Option PrepareHeader}

theorem not_contradicted {headers : List PrepareHeader}
    (h : s.contradicted headers appliedAt = false) {x a : PrepareHeader} (hx : x ∈ headers)
    (hle : x.op ≤ s.commitMin) (hsealed : x.checksum ≠ checksumUnsealed)
    (ha : appliedAt x.op = some a) (haseal : a.checksum ≠ checksumUnsealed) :
    a.checksum = x.checksum := by
  by_contra hne
  have hkind : dvcHeaderKind x = .valid := dvcHeaderKind_of_checksum hsealed
  have hsome : (contradictionOf appliedAt x).isSome = true := by
    simp [contradictionOf, ha, Option.filter, hne, haseal, hsealed]
  rw [contradicted, List.any_eq_false] at h
  exact h x (List.mem_filter.mpr ⟨hx, by simp [hle, hkind]⟩) hsome

structure Adopts (s : VsrConsensus) (header : StartViewHeader) (body : Bytes)
    (appliedAt : Nat → Option PrepareHeader) (suffix : DvcSuffix) (t : VsrConsensus) : Prop where
  sender : s.primaryIndex header.view = header.replica
  view_le : s.view ≤ header.view
  not_held : ¬ s.HoldsAnnounced header
  commit_le : s.commitMax ≤ header.op
  decoded : dvcSuffixDecode xxh3 body header.op 0 0 = .ok suffix
  valid : (s.adoptedOf header suffix).validate xxh3 s.cluster header.view = true
  agrees : s.contradicted suffix.headers appliedAt = false
  result : t = s.adoptStartView header (s.adoptedOf header suffix)

variable {t : VsrConsensus} {header : StartViewHeader} {body : Bytes}
  {r : Except StartViewRefusal (List VsrAction)}

theorem adoptOrRefuse_cases (h : s.adoptOrRefuse xxh3 header body appliedAt = (t, r))
    (hsender : s.primaryIndex header.view = header.replica) (hview : s.view ≤ header.view)
    (hheld : ¬ s.HoldsAnnounced header) (hcommit : s.commitMax ≤ header.op) :
    ((∃ e, r = .error e) ∧ OnlyCounters s t) ∨
    (r = .ok (s.adoptActions header) ∧ ∃ suffix, s.Adopts xxh3 header body appliedAt suffix t) := by
  unfold adoptOrRefuse contradictsAppliedLog at h
  cases hdec : dvcSuffixDecode xxh3 body header.op 0 0 with
  | error e =>
    rw [hdec] at h
    cases h
    exact .inl ⟨⟨_, rfl⟩, onlyCounters_refl s⟩
  | ok suffix =>
    simp only [hdec] at h
    cases hvalid : (s.adoptedOf header suffix).validate xxh3 s.cluster header.view with
    | false =>
      rw [if_pos hvalid] at h
      cases h
      exact .inl ⟨⟨_, rfl⟩, onlyCounters_refl s⟩
    | true =>
      rw [if_neg (by rw [hvalid]; decide)] at h
      cases hcon : s.contradicted suffix.headers appliedAt with
      | true =>
        rw [hcon] at h
        cases h
        exact .inl ⟨⟨_, rfl⟩, onlyCounters_countContradiction s _⟩
      | false =>
        rw [hcon] at h
        cases h
        exact .inr ⟨rfl, suffix, hsender, hview, hheld, hcommit, hdec, hvalid, hcon, rfl⟩

theorem tryHandleStartView_cases
    (h : s.tryHandleStartView xxh3 header body appliedAt = some (t, r)) :
    (((∃ e, r = .error e) ∨ r = .ok []) ∧ OnlyCounters s t) ∨
    (r = .ok [.commitJournal] ∧ s.HoldsAnnounced header ∧ s.commitMax < header.commit ∧
      t = s.advanceCommitMax header.commit) ∨
    (r = .ok (s.adoptActions header) ∧ ∃ suffix, s.Adopts xxh3 header body appliedAt suffix t) := by
  have hquiet : some (s, (.ok [] : Except StartViewRefusal (List VsrAction))) = some (t, r) →
      ((∃ e, r = .error e) ∨ r = .ok []) ∧ OnlyCounters s t := by
    intro heq
    cases heq
    exact ⟨.inr rfl, onlyCounters_refl s⟩
  unfold tryHandleStartView at h
  split_ifs at h with hg hsender hview hstale hheld hraise hcommit hself
  · exact .inl (hquiet h)
  · exact .inl (hquiet h)
  · exact .inl (hquiet h)
  · cases h
    exact .inr (.inl ⟨rfl, hheld, hraise, rfl⟩)
  · exact .inl (hquiet h)
  · exact .inl (hquiet h)
  · exact .inl (hquiet h)
  · rcases adoptOrRefuse_cases xxh3 (Option.some.inj h) (not_not.mp hsender)
      (not_lt.mp hview) hheld (not_lt.mp hcommit) with ⟨he, ht⟩ | hadopt
    · exact .inl ⟨.inl he, ht⟩
    · exact .inr (.inr hadopt)

theorem tryHandleStartView_isSome (hg : header.group = s.group) (body : Bytes)
    (appliedAt : Nat → Option PrepareHeader) :
    ∃ t r, s.tryHandleStartView xxh3 header body appliedAt = some (t, r) := by
  unfold tryHandleStartView
  rw [if_neg (not_not.mpr hg)]
  split_ifs <;> exact ⟨_, _, rfl⟩

/-! ## Adoption takes the announced log whole -/

structure AdoptedWhole (s : VsrConsensus) (header : StartViewHeader)
    (appliedAt : Nat → Option PrepareHeader) (suffix : DvcSuffix) (t : VsrConsensus) : Prop where
  sender : header.replica = s.primaryIndex header.view
  view_le : s.view ≤ header.view
  view_eq : t.view = header.view
  logView_eq : t.logView = header.view
  head_eq : t.sequence = header.op
  head_ge : s.commitMax ≤ t.sequence
  commit_ge : s.commitMax ≤ t.commitMax
  agrees : ∀ x ∈ suffix.headers, x.op ≤ s.commitMin → x.checksum ≠ checksumUnsealed →
    ∀ a, appliedAt x.op = some a → a.checksum ≠ checksumUnsealed → a.checksum = x.checksum
  belongs : ∀ x ∈ suffix.headers, dvcHeaderKind x = .valid → x.cluster = s.cluster ∧
    x.group = s.group ∧ x.partitionIncarnation = s.partitionIncarnation
  chains : ∀ i upper lower, suffix.headers[i]? = some upper →
    suffix.headers[i + 1]? = some lower → dvcHeaderKind upper = .valid →
    dvcHeaderKind lower = .valid → lower.checksum ≠ checksumUnsealed →
    upper.parent = lower.checksum

theorem Adopts.whole {xxh3 : Bytes → Nat} {suffix : DvcSuffix}
    (h : s.Adopts xxh3 header body appliedAt suffix t) :
    s.AdoptedWhole header appliedAt suffix t := by
  obtain ⟨-, -, hbelongs⟩ := AdoptedView.validate_eq_true h.valid
  obtain ⟨-, -, hslots⟩ := dvcSuffixDecode_ok xxh3 h.decoded
  have hres := h.result
  subst hres
  exact
    { sender := h.sender.symm
      view_le := h.view_le
      view_eq := rfl
      logView_eq := rfl
      head_eq := rfl
      head_ge := h.commit_le
      commit_ge := le_max_left ..
      agrees := fun x hx hle hseal a ha haseal => not_contradicted h.agrees hx hle hseal ha haseal
      belongs := fun x hx hkind => hbelongs x hx hkind
      chains := fun i upper lower hup hlow hkup hklow hseal =>
        hslots.chain hup hlow hkup hklow hseal }

/-! ## Runs of `StartView`s -/

def StartViewStep (s t : VsrConsensus) : Prop :=
  ∃ header body appliedAt r, s.tryHandleStartView xxh3 header body appliedAt = some (t, r)

variable {xxh3}

theorem StartViewStep.view (h : StartViewStep xxh3 s t) :
    s.view ≤ t.view ∧ (t.logView = s.logView ∨ t.logView = t.view) := by
  obtain ⟨header, body, appliedAt, r, hstep⟩ := h
  rcases tryHandleStartView_cases xxh3 hstep with ⟨-, n, v, rfl⟩ | ⟨-, -, -, rfl⟩ | ⟨-, suffix, had⟩
  · exact ⟨le_rfl, .inl rfl⟩
  · exact ⟨le_rfl, .inl rfl⟩
  · have hw := had.whole
    exact ⟨hw.view_eq ▸ hw.view_le, .inr (hw.logView_eq.trans hw.view_eq.symm)⟩

/-- A step within one `log_view`. -/
theorem StartViewStep.keeps_head (h : StartViewStep xxh3 s t) (hlog : t.logView = s.logView)
    (hnormal : s.status = .normal) (hproven : s.viewLogUnproven = false) :
    s.sequence ≤ t.sequence ∧ t.status = .normal ∧ t.viewLogUnproven = false := by
  obtain ⟨header, body, appliedAt, r, hstep⟩ := h
  rcases tryHandleStartView_cases xxh3 hstep with ⟨-, n, v, rfl⟩ | ⟨-, -, -, rfl⟩ | ⟨-, suffix, had⟩
  · exact ⟨le_rfl, hnormal, hproven⟩
  · exact ⟨le_rfl, hnormal, hproven⟩
  · have hview : header.view = s.logView := had.whole.logView_eq.symm.trans hlog
    have hhead : s.sequence < header.op := by
      by_contra hle
      exact had.not_held ⟨hnormal, hproven, hview, not_lt.mp hle⟩
    have hproof : s.needsReconciliation header = false := by
      simp [needsReconciliation, hproven, hnormal, hview]
    rw [had.result]
    exact ⟨hhead.le, rfl, hproof⟩

theorem head_le_of_run_in_log_view
    (hrun : Relation.ReflTransGen (fun a b => StartViewStep xxh3 a b ∧ b.logView = a.logView) s t)
    (hnormal : s.status = .normal) (hproven : s.viewLogUnproven = false) :
    s.sequence ≤ t.sequence := by
  induction hrun using Relation.ReflTransGen.head_induction_on with
  | refl => exact le_rfl
  | head hstep _ ih =>
    obtain ⟨hle, hn, hp⟩ := hstep.1.keeps_head hstep.2 hnormal hproven
    exact hle.trans (ih hn hp)

theorem logView_le_of_run (hrun : Relation.ReflTransGen (StartViewStep xxh3) s t)
    (hle : s.logView ≤ s.view) : s.logView ≤ t.logView ∧ t.logView ≤ t.view := by
  induction hrun with
  | refl => exact ⟨le_rfl, hle⟩
  | tail _ hstep ih =>
    obtain ⟨hv, hl⟩ := hstep.view
    obtain ⟨h1, h2⟩ := ih
    rcases hl with hl | hl <;> omega

theorem run_in_log_view (hrun : Relation.ReflTransGen (StartViewStep xxh3) s t)
    (hle : s.logView ≤ s.view) (hlog : t.logView = s.logView) :
    Relation.ReflTransGen (fun a b => StartViewStep xxh3 a b ∧ b.logView = a.logView) s t := by
  induction hrun with
  | refl => exact .refl
  | tail hpre hstep ih =>
    obtain ⟨h1, h2⟩ := logView_le_of_run hpre hle
    have h3 := (logView_le_of_run (.single hstep) h2).1
    have heq := le_antisymm (h3.trans hlog.le) h1
    exact (ih heq).tail ⟨hstep, hlog.trans heq.symm⟩

/-- **A `StartView` is adopted whole or not at all.** The handler moves nothing but the
contradiction counters, or only raises the commit watermark of a `Normal` proven replica that holds
the announced log, or adopts it with everything in `AdoptedWhole`. Over any run of `StartView`s a
`Normal` proven replica keeps its head within one `log_view`. -/
theorem startView_adopts_whole_or_nothing (xxh3 : Bytes → Nat) (s : VsrConsensus) :
    (∀ header body appliedAt, header.group = s.group →
      ∃ t r, s.tryHandleStartView xxh3 header body appliedAt = some (t, r) ∧
        ((((∃ e, r = .error e) ∨ r = .ok []) ∧ OnlyCounters s t) ∨
         (s.HoldsAnnounced header ∧ s.commitMax < header.commit ∧
           t = s.advanceCommitMax header.commit) ∨
         ∃ suffix, dvcSuffixDecode xxh3 body header.op 0 0 = .ok suffix ∧
           s.AdoptedWhole header appliedAt suffix t)) ∧
    (s.status = .normal → s.viewLogUnproven = false → ∀ t,
      (Relation.ReflTransGen
        (fun a b => StartViewStep xxh3 a b ∧ b.logView = a.logView) s t →
          s.sequence ≤ t.sequence) ∧
      (s.logView ≤ s.view → Relation.ReflTransGen (StartViewStep xxh3) s t →
        t.logView = s.logView → s.sequence ≤ t.sequence)) := by
  refine ⟨fun header body appliedAt hg => ?_, fun hnormal hproven t => ⟨fun hrun => ?_, ?_⟩⟩
  · obtain ⟨t, r, hstep⟩ := tryHandleStartView_isSome xxh3 hg body appliedAt
    refine ⟨t, r, hstep, ?_⟩
    rcases tryHandleStartView_cases xxh3 hstep with hquiet | ⟨-, hraise⟩ | ⟨-, suffix, had⟩
    · exact .inl hquiet
    · exact .inr (.inl hraise)
    · exact .inr (.inr ⟨suffix, had.decoded, had.whole⟩)
  · exact head_le_of_run_in_log_view hrun hnormal hproven
  · intro hle hrun hlog
    exact head_le_of_run_in_log_view (run_in_log_view hrun hle hlog) hnormal hproven

/-! ## A backup that applied three ops -/

/-- Replica 1 of three in view 0, with ops up to 3 applied. -/
def appliedBackup : VsrConsensus where
  cluster := 1
  replica := 1
  replicaCount := 3
  group := metadataGroup
  status := .normal
  commitMin := 3
  commitMax := 3
  sequence := 3

/-- Replica 0 starts view 3 with op 3 committed. -/
def startViewThree : StartViewHeader where
  replica := 0
  view := 3
  op := 3
  commit := 3
  group := metadataGroup

theorem startView_adopts_whole_or_nothing_backup :
    (∃ t r, appliedBackup.tryHandleStartView (fun _ => 0) startViewThree [] (fun _ => none) =
      some (t, r)) ∧
    ∀ t, Relation.ReflTransGen (StartViewStep fun _ => 0) appliedBackup t → t.logView = 0 →
      3 ≤ t.sequence := by
  obtain ⟨hstep, hrun⟩ := startView_adopts_whole_or_nothing (fun _ => 0) appliedBackup
  refine ⟨?_, fun t => (hrun rfl rfl t).2 le_rfl⟩
  obtain ⟨t, r, heq, -⟩ := hstep startViewThree [] (fun _ => none) rfl
  exact ⟨t, r, heq⟩

/-- The announced log: an unsealed entry at op 3, as a build before sealing wrote it, over a
blank. -/
def unsealedSuffix : DvcSuffix where
  headers := [{ command := .prepare, cluster := 1, group := metadataGroup, op := 3 }, dvcBlank 2]
  nackBitset := 0
  presentBitset := 0
  len_le := by decide
  nack_lt := by decide
  present_lt := by decide

theorem decode_unsealedSuffix :
    dvcSuffixDecode (fun _ => 0) unsealedSuffix.encode 3 0 0 = .ok unsealedSuffix := by
  refine dvcSuffixDecode_encode _ (by decide) ⟨?_, ?_, trivial⟩
  · exact (checkSlot_eq_ok _).mp (by decide)
  · exact (checkSlot_eq_ok _).mp (by decide)

/-- What the replica applied at op 3 is sealed and has another checksum. -/
def appliedThree (op : Nat) : Option PrepareHeader :=
  if op = 3 then some { command := .prepare, cluster := 1, group := metadataGroup, op := 3,
                        checksum := 9 }
  else none

/-- An unsealed header carries no identity: the replica adopts a log whose entry at an applied op
differs from the sealed prepare it applied, and whose blank names no cluster. -/
theorem startView_adopts_unsealed_difference :
    (appliedBackup.tryHandleStartView (fun _ => 0) startViewThree unsealedSuffix.encode
        appliedThree).map (fun x => (x.1.view, x.1.logView, x.1.sequence)) = some (3, 3, 3) ∧
      (∃ x ∈ unsealedSuffix.headers, x.op ≤ appliedBackup.commitMin ∧
        ∃ a, appliedThree x.op = some a ∧ a.checksum ≠ checksumUnsealed ∧
          a.checksum ≠ x.checksum) ∧
      ∃ x ∈ unsealedSuffix.headers, x.cluster ≠ appliedBackup.cluster := by
  refine ⟨?_, ⟨_, List.mem_cons_self, by decide, _, rfl, by decide, by decide⟩,
    ⟨dvcBlank 2, by decide, by decide⟩⟩
  have hvalid : (appliedBackup.adoptedOf startViewThree unsealedSuffix).validate (fun _ => 0)
      appliedBackup.cluster startViewThree.view = true := by
    have hdec : dvcSuffixDecode (fun _ => 0) (encodePrepareHeaders unsealedSuffix.headers) 3 0 0 =
        .ok unsealedSuffix := decode_unsealedSuffix
    simp only [AdoptedView.validate, adoptedOf, startViewThree, hdec]
    decide
  have hagree : appliedBackup.contradicted unsealedSuffix.headers appliedThree = false := by decide
  unfold tryHandleStartView adoptOrRefuse
  rw [if_neg (by decide), if_neg (by decide), if_neg (by decide), if_neg (by decide),
    if_neg (by decide), if_neg (by decide), if_neg (by decide),
    show startViewThree.op = 3 from rfl, decode_unsealedSuffix]
  simp only [hvalid, Bool.true_eq_false, ↓reduceIte, contradictsAppliedLog, hagree,
    Bool.false_eq_true, Option.map_some]
  rfl

end VsrConsensus

end Iggy
