import Iggy.Consensus.Superblock

/-!
# What a restart may claim about its log

Source: vsr_state.rs:158-177, 238-348; recovery.rs:583-594.

A metadata replica that restarts has its superblock record and the prepares its journal recovered.
The record's certificate says which view the journal held, up to which op; what lies above may be
left over from a view change that never finished. `recoverHistory` keeps that only as far as the
adopted view names it.
-/

namespace Iggy

open List AdoptedView

/-- `vouches_for`, up to the view a retransmission stamps. -/
def AdoptedView.vouchesFor (adopted : AdoptedView) (header : PrepareHeader) : Bool :=
  if header.checksum = checksumUnsealed then false
  else adopted.headers.any fun named =>
    if named.op ≠ header.op ∨ dvcHeaderKind named ≠ .valid then false
    else decide ({ header with view := named.view } = named)

def HistoryCertificate.binds (certificate : HistoryCertificate) (checksum : Nat) : Bool :=
  (HistoryCertificate.new certificate.view certificate.op checksum).checksum = certificate.checksum

inductive HistoryRecovery
  | certified (view : Nat) (truncateFrom : Option Nat)
  | unproven
  deriving DecidableEq

namespace HistoryRecovery

def new (state : Option VsrState) (solo : Bool) (checksumAt : Nat → Option Nat) : HistoryRecovery :=
  match state with
  | none => .certified 0 none
  | some state =>
    if solo then .certified state.logView none
    else match state.historyCertificate.filter (·.view ≤ state.logView) with
      | none => .unproven
      | some certificate =>
        if state.view = certificate.view then .certified certificate.view none
        else if certificate.op ≤ state.checkpointOp ∨
          (checksumAt certificate.op).any certificate.binds
        then .certified certificate.view
          (some (min (max certificate.op state.checkpointOp + 1) (2 ^ 64 - 1)))
        else .unproven

def retainFrom (adopted : AdoptedView) : List PrepareHeader → Option Nat → Option Nat
  | [], truncateFrom => truncateFrom
  | header :: rest, _ =>
    if adopted.vouchesFor header then
      retainFrom adopted rest (if header.op + 1 < 2 ^ 64 then some (header.op + 1) else none)
    else some header.op

def retainAdoptedSuffix (history : HistoryRecovery) (adopted : AdoptedView)
    (headers : List PrepareHeader) : HistoryRecovery :=
  match history with
  | .certified view (some cut) =>
    if adopted.view ≤ view then history
    else .certified view (retainFrom adopted (headers.filter fun header => cut ≤ header.op)
      (some cut))
  | _ => history

def logView : HistoryRecovery → Nat
  | .certified view _ => view
  | .unproven => 0

end HistoryRecovery

def checksumAt (resident : List PrepareHeader) (op : Nat) : Option Nat :=
  (resident.find? (·.op = op)).map (·.checksum)

variable (state : VsrState)

def recoverHistory (resident : List PrepareHeader) : HistoryRecovery :=
  let history := HistoryRecovery.new (some state) false (checksumAt resident)
  match state.adoptedView with
  | none => history
  | some adopted => history.retainAdoptedSuffix adopted resident

/-! ## What vouching means -/

/-- A valid header at its op, equal up to the view. -/
def AdoptedView.Names (adopted : AdoptedView) (header : PrepareHeader) : Prop :=
  header.checksum ≠ checksumUnsealed ∧ ∃ named ∈ adopted.headers, named.op = header.op ∧
    dvcHeaderKind named = .valid ∧ { header with view := named.view } = named

theorem AdoptedView.vouchesFor_iff {adopted : AdoptedView} {header : PrepareHeader} :
    adopted.vouchesFor header = true ↔ adopted.Names header := by
  simp [vouchesFor, Names, and_assoc]

/-! ## The scan above the cut -/

namespace HistoryRecovery

variable {adopted : AdoptedView}

/-- The scan stops at the first entry the view does not name, or past the last. -/
theorem retainFrom_eq_some {resident : List PrepareHeader} {start : Option Nat} {cut : Nat}
    (ascending : resident.Pairwise (·.op < ·.op))
    (h : retainFrom adopted resident start = some cut) :
    (∀ header ∈ resident, header.op < cut → adopted.vouchesFor header = true) ∧
    (∀ header ∈ resident, cut ≤ header.op →
      (∀ other ∈ resident, cut ≤ other.op → header.op ≤ other.op) →
      adopted.vouchesFor header = false) ∧
    (resident = [] ∧ start = some cut ∨ ∃ header ∈ resident, header.op ≤ cut) := by
  induction resident generalizing start with
  | nil => exact ⟨by simp, by simp, .inl ⟨rfl, h⟩⟩
  | cons header rest ih =>
    obtain ⟨hbelow, hrest⟩ := pairwise_cons.mp ascending
    rw [retainFrom] at h
    split at h <;> rename_i hvouched
    · obtain ⟨hkept, hstop, hcut⟩ := ih hrest h
      have hpast : header.op < cut := by
        rcases hcut with ⟨_, hstart⟩ | ⟨other, hother, hle⟩
        · split_ifs at hstart
          have := Option.some.inj hstart
          omega
        · exact (hbelow other hother).trans_le hle
      refine ⟨fun entry hentry hlt => ?_, fun entry hentry hle hlowest => ?_,
        .inr ⟨header, by simp, hpast.le⟩⟩
      · rcases mem_cons.mp hentry with rfl | hentry
        · exact hvouched
        · exact hkept entry hentry hlt
      · rcases mem_cons.mp hentry with rfl | hentry
        · omega
        · exact hstop entry hentry hle fun other hother =>
            hlowest other (mem_cons_of_mem _ hother)
    · cases h
      refine ⟨fun entry hentry hlt => ?_, fun entry hentry hle hlowest => ?_,
        .inr ⟨header, by simp, le_rfl⟩⟩
      · rcases mem_cons.mp hentry with rfl | hentry
        · omega
        · have := hbelow entry hentry
          omega
      · rcases mem_cons.mp hentry with rfl | hentry
        · simpa using hvouched
        · have := hlowest header (by simp) le_rfl
          have := hbelow entry hentry
          omega

theorem retainFrom_eq_none {resident : List PrepareHeader} {start : Option Nat}
    (h : retainFrom adopted resident start = none) :
    (∀ header ∈ resident, adopted.vouchesFor header = true) ∧
    (resident = [] ∧ start = none ∨ ∃ header ∈ resident, 2 ^ 64 - 1 ≤ header.op) := by
  induction resident generalizing start with
  | nil => exact ⟨by simp, .inl ⟨rfl, h⟩⟩
  | cons header rest ih =>
    rw [retainFrom] at h
    split at h
    · rename_i hvouched
      obtain ⟨hall, hlast⟩ := ih h
      refine ⟨forall_mem_cons.mpr ⟨hvouched, hall⟩, .inr ?_⟩
      rcases hlast with ⟨_, hstart⟩ | ⟨last, hmem, hop⟩
      · refine ⟨header, by simp, ?_⟩
        split_ifs at hstart
        omega
      · exact ⟨last, mem_cons_of_mem _ hmem, hop⟩
    · cases h

/-- The certificate's entry is below the snapshot, or still the one it was bound to. -/
def Held (checksumAt : Nat → Option Nat) (certificate : HistoryCertificate) : Prop :=
  certificate.op ≤ state.checkpointOp ∨ (checksumAt certificate.op).any certificate.binds

/-- The op up to which the record itself proves the log. -/
def provenThrough (certificate : HistoryCertificate) : Nat :=
  max certificate.op state.checkpointOp

theorem new_cases (checksumAt : Nat → Option Nat) :
    (∃ certificate, state.historyCertificate = some certificate ∧
      certificate.view ≤ state.logView ∧
      (state.view = certificate.view ∧
          new (some state) false checksumAt = .certified certificate.view none ∨
        state.view ≠ certificate.view ∧
          new (some state) false checksumAt = .certified certificate.view
            (some (min (provenThrough state certificate + 1) (2 ^ 64 - 1))))) ∨
    new (some state) false checksumAt = .unproven ∧
      ∀ certificate, state.historyCertificate = some certificate →
        certificate.view ≤ state.logView →
        state.view ≠ certificate.view ∧ ¬ Held state checksumAt certificate := by
  cases hcertificate : state.historyCertificate.filter (·.view ≤ state.logView) with
  | none =>
    refine .inr ⟨by simp [new, hcertificate], fun certificate hsome hview => ?_⟩
    simp only [hsome, Option.filter_some, decide_eq_true hview, if_true] at hcertificate
    cases hcertificate
  | some certificate =>
    obtain ⟨hsome, hview⟩ := Option.filter_eq_some_iff.mp hcertificate
    have hview : certificate.view ≤ state.logView := by simpa using hview
    by_cases hsame : state.view = certificate.view
    · exact .inl ⟨certificate, hsome, hview, .inl ⟨hsame, by simp [new, hcertificate, hsame]⟩⟩
    by_cases hheld : Held state checksumAt certificate
    · refine .inl ⟨certificate, hsome, hview, .inr ⟨hsame, ?_⟩⟩
      simp only [new, hcertificate, Bool.false_eq_true, if_false, if_neg hsame]
      exact if_pos hheld
    · refine .inr ⟨?_, fun other hother _ => ?_⟩
      · simp only [new, hcertificate, Bool.false_eq_true, if_false, if_neg hsame]
        exact if_neg hheld
      · obtain rfl : certificate = other := Option.some.inj (hsome.symm.trans hother)
        exact ⟨hsame, hheld⟩

end HistoryRecovery

open HistoryRecovery

structure CutAt (state : VsrState) (resident : List PrepareHeader)
    (certificate : HistoryCertificate) (cut : Nat) : Prop where
  /-- The proven entries stay. -/
  above : provenThrough state certificate < 2 ^ 64 - 1 → provenThrough state certificate < cut
  /-- What stays above them is named by the adopted view. -/
  named : ∀ header ∈ resident, provenThrough state certificate < header.op → header.op < cut →
    ∃ adopted, state.adoptedView = some adopted ∧ adopted.Names header
  /-- The first entry dropped is one a newer adopted view does not name. -/
  stops : ∀ adopted, state.adoptedView = some adopted → certificate.view < adopted.view →
    ∀ header ∈ resident, cut ≤ header.op →
      (∀ other ∈ resident, cut ≤ other.op → header.op ≤ other.op) → ¬ adopted.Names header

theorem cutAt_of_unread {state : VsrState} {resident : List PrepareHeader}
    {certificate : HistoryCertificate} {first : Nat}
    (hfirst : min (provenThrough state certificate + 1) (2 ^ 64 - 1) = first)
    (unread : ∀ adopted, state.adoptedView = some adopted → adopted.view ≤ certificate.view) :
    CutAt state resident certificate first where
  above := by omega
  named := by
    intro header _ habove hbelow
    omega
  stops := by
    intro adopted hadopted hnewer
    have := unread adopted hadopted
    omega

theorem cutAt_of_retainFrom {state : VsrState} {resident : List PrepareHeader}
    {certificate : HistoryCertificate} {adopted : AdoptedView} {first cut : Nat}
    (hfirst : min (provenThrough state certificate + 1) (2 ^ 64 - 1) = first)
    (ascending : resident.Pairwise (·.op < ·.op)) (hadopted : state.adoptedView = some adopted)
    (h : retainFrom adopted (resident.filter fun header => first ≤ header.op) (some first) =
      some cut) :
    CutAt state resident certificate cut := by
  obtain ⟨hkept, hstop, hcut⟩ := retainFrom_eq_some (ascending.filter _) h
  have hfrom : first ≤ cut := by
    rcases hcut with ⟨_, hstart⟩ | ⟨header, hmem, hle⟩
    · exact (Option.some.inj hstart).le
    · have := (mem_filter.mp hmem).2
      simp only [decide_eq_true_eq] at this
      exact this.trans hle
  refine ⟨by omega, fun header hmem habove hbelow => ?_,
    fun other hother _ header hmem hle hlowest => ?_⟩
  · refine ⟨adopted, hadopted, vouchesFor_iff.mp (hkept header ?_ hbelow)⟩
    exact mem_filter.mpr ⟨hmem, by simp only [decide_eq_true_eq]; omega⟩
  · obtain rfl : adopted = other := Option.some.inj (hadopted.symm.trans hother)
    have hrefused := hstop header (mem_filter.mpr ⟨hmem, by simp only [decide_eq_true_eq]; omega⟩)
      hle fun other hother => hlowest other (mem_of_mem_filter hother)
    rw [← vouchesFor_iff, hrefused]
    simp

/-- **A restart keeps only proven history.** A cut lies above what the record proves, every entry
kept above that is named by the adopted view and the first one dropped is not. Nothing is cut only
if the record never left the certified view or the view names every entry up to the last op. A log
that no certificate proves is advertised as view 0. -/
theorem recoverHistory_keeps_proven (resident : List PrepareHeader)
    (ascending : resident.Pairwise (·.op < ·.op)) :
    (∃ certificate, state.historyCertificate = some certificate ∧
      certificate.view ≤ state.logView ∧
      ((∃ cut, recoverHistory state resident = .certified certificate.view (some cut) ∧
          CutAt state resident certificate cut) ∨
        recoverHistory state resident = .certified certificate.view none ∧
          (state.view = certificate.view ∨
            ∃ adopted, state.adoptedView = some adopted ∧
              (∀ header ∈ resident, provenThrough state certificate < header.op →
                adopted.Names header) ∧
              ∃ last ∈ resident, 2 ^ 64 - 1 ≤ last.op ∧ adopted.Names last))) ∨
    recoverHistory state resident = .unproven ∧ (recoverHistory state resident).logView = 0 ∧
      ∀ certificate, state.historyCertificate = some certificate →
        certificate.view ≤ state.logView →
        state.view ≠ certificate.view ∧ ¬ Held state (checksumAt resident) certificate := by
  rcases new_cases state (checksumAt resident) with
    ⟨certificate, hsome, hview, ⟨hsame, hnew⟩ | ⟨hpast, hnew⟩⟩ | ⟨hnew, hunproven⟩
  · refine .inl ⟨certificate, hsome, hview, .inr ⟨?_, .inl hsame⟩⟩
    cases hadopted : state.adoptedView <;>
      simp [recoverHistory, hadopted, hnew, retainAdoptedSuffix]
  · refine .inl ⟨certificate, hsome, hview, ?_⟩
    generalize hfirst : min (provenThrough state certificate + 1) (2 ^ 64 - 1) = first at hnew
    cases hadopted : state.adoptedView with
    | none =>
      refine .inl ⟨_, by simp [recoverHistory, hadopted, hnew], cutAt_of_unread hfirst ?_⟩
      simp [hadopted]
    | some adopted =>
      have hrecover : recoverHistory state resident =
          retainAdoptedSuffix (.certified certificate.view (some first)) adopted resident := by
        simp only [recoverHistory, hadopted, hnew]
      by_cases hnewer : adopted.view ≤ certificate.view
      · refine .inl ⟨_, hrecover.trans (if_pos hnewer),
          cutAt_of_unread hfirst fun other hother => ?_⟩
        obtain rfl : adopted = other := Option.some.inj (hadopted.symm.trans hother)
        exact hnewer
      · rw [retainAdoptedSuffix, if_neg hnewer] at hrecover
        cases hretain : retainFrom adopted (resident.filter fun header => first ≤ header.op)
            (some first) with
        | some cut =>
          rw [hretain] at hrecover
          exact .inl ⟨cut, hrecover, cutAt_of_retainFrom hfirst ascending hadopted hretain⟩
        | none =>
          rw [hretain] at hrecover
          obtain ⟨hall, ⟨_, hstart⟩ | ⟨last, hmem, hlast⟩⟩ := retainFrom_eq_none hretain
          · cases hstart
          · refine .inr ⟨hrecover, .inr ⟨adopted, rfl, fun header hheader habove => ?_, last,
              mem_of_mem_filter hmem, hlast, vouchesFor_iff.mp (hall last hmem)⟩⟩
            refine vouchesFor_iff.mp (hall header (mem_filter.mpr ⟨hheader, ?_⟩))
            simp only [decide_eq_true_eq]
            omega
  · have hrecover : recoverHistory state resident = .unproven := by
      cases hadopted : state.adoptedView <;>
        simp [recoverHistory, hadopted, hnew, retainAdoptedSuffix]
    exact .inr ⟨hrecover, by rw [hrecover]; rfl, hunproven⟩

/-- A record certified at op 2 of view 1, with view 3 adopted, which names op 3. -/
def adoptedRecord : VsrState :=
  { cluster := 1, replicaId := 0, replicaCount := 3, view := 3, logView := 3, commitMax := 2,
    checkpointOp := 1, checkpointChecksum := 0, offsetFrontier := 0, offsetReserved := 0,
    adoptedView := some
      { view := 3, group := 0, partitionIncarnation := 0, opHead := 3, commitMax := 2,
        headers := [{ dvcBlank 3 with view := 3, checksum := 13, parent := 12 }] } :
    VsrState }.withHistoryCertificate (some (.new 1 2 12))

/-- The entry at op 3 as the view names it, and one above that nothing names. -/
def adoptedJournal : List PrepareHeader :=
  [{ dvcBlank 2 with view := 1, checksum := 12 },
    { dvcBlank 3 with view := 2, checksum := 13, parent := 12 },
    { dvcBlank 5 with view := 1, checksum := 15 }]

theorem recoverHistory_adoptedRecord :
    recoverHistory adoptedRecord adoptedJournal = .certified 1 (some 5) ∧
      CutAt adoptedRecord adoptedJournal (.new 1 2 12) 5 := by
  have hrecover : recoverHistory adoptedRecord adoptedJournal = .certified 1 (some 5) := by decide
  have hcertificate : adoptedRecord.historyCertificate = some (.new 1 2 12) := by decide
  refine ⟨hrecover, ?_⟩
  rcases recoverHistory_keeps_proven adoptedRecord adoptedJournal (by decide) with
    ⟨certificate, hsome, _, ⟨cut, hcut, hcutAt⟩ | ⟨hnone, _⟩⟩ | ⟨hunproven, _⟩
  · cases hcertificate.symm.trans hsome
    obtain ⟨_, rfl⟩ : _ ∧ 5 = cut := by simpa [hrecover] using hcut
    exact hcutAt
  · simp [hrecover] at hnone
  · simp [hrecover] at hunproven

end Iggy
