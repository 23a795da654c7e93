import Iggy.Consensus.ViewLogProof

/-!
# What the held log says about a repaired prepare

Source: plane_helpers.rs:1077-1132; impls.rs:5107-5126; shard/src/lib.rs:6090-6174;
iggy_partition.rs:12503-12590.

A repaired prepare carries no sender, so only the replica's own log can tell whether it belongs to
the view. `repairedPrepareEvidence` reads the headers the view names and the entries held, and the
caller journals the prepare unless they contradict it. Three things vouch for an entry, in this
order: a header of the view's log, one of the committed headers beside it, and a held entry that the
view-log proof covers.
-/

namespace Iggy

open List Option

inductive RepairEvidence
  | proven | unproven | contradicted
  deriving DecidableEq

namespace ViewLog

variable (pending : Option MergedLog)

def pendingAt (op : Nat) : Option PrepareHeader :=
  pending.bind fun log =>
    (canonicalHeaderAt log.headers op).or (canonicalHeaderAt log.committedElsewhere op)

variable (heldAt : Nat → Option (PrepareHeader × Bool))

/-- The entry at an op, with whether it is vouched for. -/
def entryAt (op : Nat) : Option (PrepareHeader × Bool) :=
  ((pendingAt pending op).map fun header => (header, true)).or (heldAt op)

/-- An unsealed checksum on either side is no evidence. -/
def links (child parent : PrepareHeader) : Option Bool :=
  if child.checksum ≠ checksumUnsealed ∧ parent.checksum ≠ checksumUnsealed then
    some (child.parent = parent.checksum)
  else none

/-- `header.op.checked_sub(1).filter(|op| *op > 0).and_then(&entry_at)`. -/
def entryBelow (op : Nat) : Option (PrepareHeader × Bool) :=
  if 1 < op then entryAt pending heldAt (op - 1) else none

/-- `header.op.checked_add(1).and_then(&entry_at)`. -/
def entryAbove (op : Nat) : Option (PrepareHeader × Bool) :=
  if op + 1 < 2 ^ 64 then entryAt pending heldAt (op + 1) else none

/-- The links to its neighbours, each with whether the neighbour is vouched for. -/
def neighbours (header : PrepareHeader) (pending : Option MergedLog)
    (heldAt : Nat → Option (PrepareHeader × Bool)) : List (Option Bool × Bool) :=
  ((entryBelow pending heldAt header.op).map fun (below, vouched) =>
      (links header below, vouched)).toList ++
    ((entryAbove pending heldAt header.op).map fun (above, vouched) =>
      (links above header, vouched)).toList

theorem mem_neighbours {header : PrepareHeader} {pending : Option MergedLog}
    {heldAt : Nat → Option (PrepareHeader × Bool)} {link : Option Bool × Bool} :
    link ∈ neighbours header pending heldAt ↔
      (∃ below, entryBelow pending heldAt header.op = some below ∧
        (links header below.1, below.2) = link) ∨
      ∃ above, entryAbove pending heldAt header.op = some above ∧
        (links above.1 header, above.2) = link := by
  simp only [neighbours, mem_append, mem_toList, map_eq_some_iff]

end ViewLog

open ViewLog

def repairedPrepareEvidence (header : PrepareHeader) (view : Nat) (pending : Option MergedLog)
    (heldAt : Nat → Option (PrepareHeader × Bool)) : RepairEvidence :=
  match entryAt pending heldAt header.op with
  | some (named, true) =>
    if named.checksum = header.checksum then .proven else .contradicted
  | _ =>
    if (neighbours header pending heldAt).any fun (link, vouched) => link = some false && vouched then
      .contradicted
    else if view ≤ header.view ∨ (entryAbove pending heldAt header.op).any fun (above, vouched) =>
        vouched && links above header = some true then
      .proven
    -- A held neighbour that is not vouched for splices an unproven prepare only.
    else if (neighbours header pending heldAt).any fun (link, _) => link = some false then
      .contradicted
    else .unproven

def noteRepairedViewHeader (pending : Option MergedLog) (header : PrepareHeader)
    (evidence : RepairEvidence) : Option MergedLog :=
  if evidence ≠ .proven then pending
  else pending.map fun log =>
    if log.opHead = header.op ∧ log.headers.head?.all fun head => dvcHeaderKind head = .blank then
      { log with headers := header :: log.headers.tail }
    else log

namespace ViewLog

theorem canonicalHeaderAt_cons_of_ne {header : PrepareHeader} {rest : List PrepareHeader} {op : Nat}
    (hop : op ≠ header.op) : canonicalHeaderAt (header :: rest) op = canonicalHeaderAt rest op :=
  find?_cons_of_neg (by simp [hop.symm])

theorem canonicalHeaderAt_tail_of_blank {headers : List PrepareHeader} (op : Nat)
    (h : headers.head?.all fun head => dvcHeaderKind head = .blank) :
    canonicalHeaderAt headers.tail op = canonicalHeaderAt headers op := by
  cases headers with
  | nil => rfl
  | cons head rest =>
    have hblank : dvcHeaderKind head = .blank := by simpa using h
    exact (find?_cons_of_neg (by simp [hblank])).symm

theorem pendingAt_note {pending : Option MergedLog} {header : PrepareHeader}
    (sealed : header.checksum ≠ checksumUnsealed) (evidence : RepairEvidence) (op : Nat) :
    pendingAt (noteRepairedViewHeader pending header evidence) op = pendingAt pending op ∨
      op = header.op ∧ pendingAt (noteRepairedViewHeader pending header evidence) op = some header := by
  unfold noteRepairedViewHeader
  split
  · exact .inl rfl
  cases pending with
  | none => exact .inl rfl
  | some log =>
    simp only [map_some, pendingAt, bind_some]
    split
    · rename_i hhead
      by_cases hop : op = header.op
      · have hkind : dvcHeaderKind header ≠ .blank := by
          simp [dvcHeaderKind_of_checksum sealed]
        have hfound : canonicalHeaderAt (header :: log.headers.tail) op = some header :=
          find?_cons_of_pos (by simp [hop, hkind])
        exact .inr ⟨hop, by rw [hfound, some_or]⟩
      · rw [canonicalHeaderAt_cons_of_ne hop, canonicalHeaderAt_tail_of_blank op hhead.2]
        exact .inl rfl
    · exact .inl rfl

end ViewLog

/-- What repair reads: the view, its log, and the entries held with the ops the view-log proof
covers. -/
structure RepairLog where
  view : Nat
  pending : Option MergedLog
  held : Nat → Option PrepareHeader
  entryProven : Nat → Bool

namespace RepairLog

variable (s : RepairLog)

def heldAt (op : Nat) : Option (PrepareHeader × Bool) :=
  (s.held op).map fun header => (header, s.entryProven op)

variable (header : PrepareHeader)

def evidence : RepairEvidence :=
  repairedPrepareEvidence header s.view s.pending s.heldAt

def journal : RepairLog :=
  { s with held := Function.update s.held header.op (some header) }

def note (evidence : RepairEvidence) : RepairLog :=
  { s with pending := noteRepairedViewHeader s.pending header evidence }

def repaired : RepairLog := (s.journal header).note header (s.evidence header)

/-- One repaired prepare: journaled at an empty op, or only noted. -/
inductive Step (s : RepairLog) (header : PrepareHeader) : RepairLog → Prop
  | journaled (accepted : s.evidence header ≠ .contradicted) (free : s.held header.op = none) :
      Step s header (s.repaired header)
  | noted (accepted : s.evidence header ≠ .contradicted) :
      Step s header (s.note header (s.evidence header))

/-- A sealed prepare past the commit point that passed the integrity check. -/
structure Served (genuine : PrepareHeader → Prop) (header : PrepareHeader) : Prop where
  numbered : 0 < header.op ∧ header.op < 2 ^ 64
  sealed : header.checksum ≠ checksumUnsealed
  intact : genuine header

inductive Repairs (genuine : PrepareHeader → Prop) (s₀ : RepairLog) : RepairLog → Prop
  | start : Repairs genuine s₀ s₀
  | step {s s' : RepairLog} {header : PrepareHeader} (run : Repairs genuine s₀ s)
      (served : Served genuine header) (step : s.Step header s') : Repairs genuine s₀ s'

def vouchedAt (op : Nat) : Option PrepareHeader :=
  (pendingAt s.pending op).or (if s.entryProven op then s.held op else none)

/-- Entries that are vouched for at adjacent ops are hash-chained. -/
def VouchedChained : Prop :=
  ∀ op parent child, 0 < op → op + 1 < 2 ^ 64 → s.vouchedAt op = some parent →
    s.vouchedAt (op + 1) = some child → links child parent ≠ some false

/-- A header is not contradicted by the entry vouched for below it, nor by the one above. -/
def ChainsAt : Prop :=
  (∀ below, 1 < header.op → s.vouchedAt (header.op - 1) = some below →
    links header below ≠ some false) ∧
  ∀ above, header.op + 1 < 2 ^ 64 → s.vouchedAt (header.op + 1) = some above →
    links above header ≠ some false

/-! ## What the evidence says -/

variable {s : RepairLog} {op : Nat}

theorem entryAt_eq_of_vouchedAt {entry : PrepareHeader} (h : s.vouchedAt op = some entry) :
    entryAt s.pending s.heldAt op = some (entry, true) := by
  cases hpending : pendingAt s.pending op with
  | some named =>
    have hentry : named = entry := by simpa [vouchedAt, hpending] using h
    simp [entryAt, hpending, hentry]
  | none =>
    have hheld : s.entryProven op = true ∧ s.held op = some entry := by
      simpa [vouchedAt, hpending] using h
    simp [entryAt, hpending, heldAt, hheld]

theorem vouchedAt_of_entryAt {entry : PrepareHeader}
    (h : entryAt s.pending s.heldAt op = some (entry, true)) : s.vouchedAt op = some entry := by
  cases hpending : pendingAt s.pending op with
  | some named => simpa [entryAt, vouchedAt, hpending] using h
  | none =>
    simp only [entryAt, hpending, map_none, none_or, heldAt, map_eq_some_iff, Prod.mk.injEq] at h
    obtain ⟨held, hheld, rfl, hproven⟩ := h
    simp [vouchedAt, hpending, hheld, hproven]

theorem entryAt_of_held {held : PrepareHeader} (hpending : pendingAt s.pending op = none)
    (h : s.held op = some held) :
    entryAt s.pending s.heldAt op = some (held, s.entryProven op) := by
  simp [entryAt, hpending, heldAt, h]

theorem links_of_sealed {child parent : PrepareHeader} (hchild : child.checksum ≠ checksumUnsealed)
    (hparent : parent.checksum ≠ checksumUnsealed) (h : links child parent ≠ some false) :
    child.parent = parent.checksum := by
  simpa [links, hchild, hparent] using h

variable {header : PrepareHeader}

theorem checksum_of_accepted {named : PrepareHeader} (accepted : s.evidence header ≠ .contradicted)
    (h : s.vouchedAt header.op = some named) : named.checksum = header.checksum := by
  by_contra hne
  exact accepted (by simp [evidence, repairedPrepareEvidence, entryAt_eq_of_vouchedAt h, hne])

theorem chainsAt_of_unnamed (accepted : s.evidence header ≠ .contradicted)
    (h : s.vouchedAt header.op = none) : s.ChainsAt header := by
  have hlinks : (some false, true) ∉ neighbours header s.pending s.heldAt := by
    intro hmem
    refine accepted ?_
    unfold evidence repairedPrepareEvidence
    split
    · rename_i hnamed
      simp [vouchedAt_of_entryAt hnamed] at h
    · exact if_pos (any_eq_true.mpr ⟨_, hmem, rfl⟩)
  simp only [mem_neighbours, entryBelow, entryAbove, not_or, not_exists, not_and] at hlinks
  refine ⟨fun below hop hbelow hlink => ?_, fun above hop habove hlink => ?_⟩
  · exact hlinks.1 _ ((if_pos hop).trans (entryAt_eq_of_vouchedAt hbelow)) (by rw [hlink])
  · exact hlinks.2 _ ((if_pos hop).trans (entryAt_eq_of_vouchedAt habove)) (by rw [hlink])

/-- **An unproven prepare splices nothing** at ops the view does not name. -/
theorem held_links_of_unproven (h : s.evidence header = .unproven) :
    (∀ below, 1 < header.op → pendingAt s.pending (header.op - 1) = none →
      s.held (header.op - 1) = some below → links header below ≠ some false) ∧
    ∀ above, header.op + 1 < 2 ^ 64 → pendingAt s.pending (header.op + 1) = none →
      s.held (header.op + 1) = some above → links above header ≠ some false := by
  have hlinks : ∀ vouched, (some false, vouched) ∉ neighbours header s.pending s.heldAt := by
    intro vouched hmem
    have hsplices : ((neighbours header s.pending s.heldAt).any
        fun (link, _) => link = some false) = true := any_eq_true.mpr ⟨_, hmem, rfl⟩
    unfold evidence repairedPrepareEvidence at h
    split at h
    · split at h <;> cases h
    · rw [if_pos hsplices] at h
      split at h
      · cases h
      · split at h <;> cases h
  simp only [mem_neighbours, entryBelow, entryAbove, not_or, not_exists, not_and] at hlinks
  refine ⟨fun below hop hnamed hheld hlink => ?_, fun above hop hnamed hheld hlink => ?_⟩
  · exact (hlinks _).1 _ ((if_pos hop).trans (entryAt_of_held hnamed hheld)) (by rw [hlink])
  · exact (hlinks _).2 _ ((if_pos hop).trans (entryAt_of_held hnamed hheld)) (by rw [hlink])

/-! ## What one repaired prepare preserves -/

/-- Every sealed entry that is vouched for passed the integrity check, and adjacent ones are
chained. -/
structure Vouches (genuine : PrepareHeader → Prop) (s : RepairLog) : Prop where
  intact : ∀ op entry, s.vouchedAt op = some entry → entry.checksum ≠ checksumUnsealed → genuine entry
  chained : s.VouchedChained

/-- The same entries, and possibly the prepare at its op. -/
def VouchesFor (s : RepairLog) (header : PrepareHeader) (s' : RepairLog) : Prop :=
  ∀ op, s'.vouchedAt op = s.vouchedAt op ∨ op = header.op ∧ s'.vouchedAt op = some header

variable {s' : RepairLog}

theorem VouchesFor.trans {s'' : RepairLog} (h : s.VouchesFor header s')
    (h' : s'.VouchesFor header s'') : s.VouchesFor header s'' := by
  intro op
  rcases h' op with hsame | hnew
  · rw [hsame]
    exact h op
  · exact .inr hnew

theorem vouchesFor_journal (free : s.held header.op = none) : s.VouchesFor header
    (s.journal header) := by
  intro op
  by_cases hop : op = header.op
  · subst hop
    cases hpending : pendingAt s.pending header.op <;> cases hproven : s.entryProven header.op <;>
      simp [vouchedAt, journal, hpending, hproven, free]
  · exact .inl (by simp [vouchedAt, journal, Function.update_of_ne hop])

theorem vouchesFor_note (s : RepairLog) (sealed : header.checksum ≠ checksumUnsealed)
    (evidence : RepairEvidence) : s.VouchesFor header (s.note header evidence) := by
  intro op
  rcases @pendingAt_note s.pending _ sealed evidence op with hsame | ⟨hop, hnew⟩
  · have hor := congrArg (or · (if s.entryProven op then s.held op else none)) hsame
    exact .inl hor
  · exact .inr ⟨hop, by simp [vouchedAt, note, hnew]⟩

theorem Step.vouchesFor (sealed : header.checksum ≠ checksumUnsealed) (h : s.Step header s') :
    s.VouchesFor header s' := by
  cases h with
  | journaled _ free => exact (vouchesFor_journal free).trans (vouchesFor_note _ sealed _)
  | noted => exact vouchesFor_note s sealed _

theorem Vouches.insert {genuine : PrepareHeader → Prop} (inv : s.Vouches genuine)
    (intact : genuine header) (chains : s.ChainsAt header) (h : s.VouchesFor header s') :
    s'.Vouches genuine where
  intact := by
    intro op entry hentry hsealed
    rcases h op with hsame | ⟨_, hnew⟩
    · exact inv.intact op entry (hsame ▸ hentry) hsealed
    · obtain rfl : header = entry := by simpa [hnew] using hentry
      exact intact
  chained := by
    intro op parent child hpos hmax hparent hchild
    rcases h op with hsame | ⟨hop, hnew⟩ <;> rcases h (op + 1) with hsame' | ⟨hop', hnew'⟩
    · exact inv.chained op parent child hpos hmax (hsame ▸ hparent) (hsame' ▸ hchild)
    · obtain rfl : header = child := by simpa [hnew'] using hchild
      refine chains.1 parent (by omega) ?_
      rw [← hop', Nat.add_sub_cancel, ← hsame]
      exact hparent
    · obtain rfl : header = parent := by simpa [hnew] using hparent
      exact chains.2 child (hop ▸ hmax) (hop ▸ hsame' ▸ hchild)
    · omega

section Run

variable {genuine : PrepareHeader → Prop}
  -- A checksum that the integrity check passed covers the parent.
  (binds : ∀ a b, genuine a → genuine b → a.checksum = b.checksum → a.parent = b.parent)

include binds

variable {s : RepairLog}

theorem chainsAt_of_accepted {header : PrepareHeader} (inv : s.Vouches genuine)
    (served : Served genuine header) (accepted : s.evidence header ≠ .contradicted) :
    s.ChainsAt header := by
  cases hnamed : s.vouchedAt header.op with
  | none => exact chainsAt_of_unnamed accepted hnamed
  | some named =>
    -- The evidence reads no neighbour here; the prepare links as the header it is.
    have hchecksum := checksum_of_accepted accepted hnamed
    have hgenuine := inv.intact _ _ hnamed (hchecksum ▸ served.sealed)
    have hparent := binds _ _ hgenuine served.intact hchecksum
    obtain ⟨hpos, hmax⟩ := served.numbered
    refine ⟨fun below hop hbelow => ?_, fun above hop habove => ?_⟩
    · have hop' : header.op - 1 + 1 = header.op := by omega
      have hlinks := inv.chained (header.op - 1) below named (by omega) (by omega) hbelow
        (hop' ▸ hnamed)
      simpa [links, hchecksum, hparent] using hlinks
    · have hlinks := inv.chained header.op named above hpos hop hnamed habove
      simpa [links, hchecksum] using hlinks

theorem Step.vouches {s' : RepairLog} {header : PrepareHeader} (inv : s.Vouches genuine)
    (served : Served genuine header) (h : s.Step header s') : s'.Vouches genuine := by
  have accepted : s.evidence header ≠ .contradicted := by cases h <;> assumption
  exact inv.insert served.intact (chainsAt_of_accepted binds inv served accepted)
    (h.vouchesFor served.sealed)

theorem Repairs.vouches {s₀ : RepairLog} (inv : s₀.Vouches genuine) (run : Repairs genuine s₀ s) :
    s.Vouches genuine := by
  induction run with
  | start => exact inv
  | step _ served step ih => exact step.vouches binds ih served

end Run

variable (genuine : PrepareHeader → Prop)

/-- **Repair does not splice branches.** After every sequence of repaired prepares the vouched
entries are still chained. A prepare that may be journaled has the checksum vouched for at its op,
chains to the sealed entries vouched for next to it, and, where it is unproven, to the sealed
entries held next to it at ops the view does not name. -/
theorem repair_chains
    (binds : ∀ a b, genuine a → genuine b → a.checksum = b.checksum → a.parent = b.parent)
    (s₀ s : RepairLog) (inv : s₀.Vouches genuine) (run : Repairs genuine s₀ s) : s.VouchedChained ∧
    ∀ header, Served genuine header → s.evidence header ≠ .contradicted →
      s.held header.op = none →
      (∀ named, s.vouchedAt header.op = some named → named.checksum = header.checksum) ∧
      (∀ below, 1 < header.op → below.checksum ≠ checksumUnsealed →
        (s.vouchedAt (header.op - 1) = some below ∨
          s.evidence header = .unproven ∧ s.held (header.op - 1) = some below ∧
            pendingAt s.pending (header.op - 1) = none) →
        header.parent = below.checksum) ∧
      ∀ above, header.op + 1 < 2 ^ 64 → above.checksum ≠ checksumUnsealed →
        (s.vouchedAt (header.op + 1) = some above ∨
          s.evidence header = .unproven ∧ s.held (header.op + 1) = some above ∧
            pendingAt s.pending (header.op + 1) = none) →
        above.parent = header.checksum := by
  have inv' := run.vouches binds inv
  refine ⟨inv'.chained, fun header served accepted _ => ?_⟩
  have hchains := chainsAt_of_accepted binds inv' served accepted
  refine ⟨fun named hnamed => checksum_of_accepted accepted hnamed, ?_, ?_⟩
  · rintro below hop hsealed (hvouched | ⟨hunproven, hheld, hnamed⟩)
    · exact links_of_sealed served.sealed hsealed (hchains.1 below hop hvouched)
    · exact links_of_sealed served.sealed hsealed
        ((held_links_of_unproven hunproven).1 below hop hnamed hheld)
  · rintro above hop hsealed (hvouched | ⟨hunproven, hheld, hnamed⟩)
    · exact links_of_sealed hsealed served.sealed (hchains.2 above hop hvouched)
    · exact links_of_sealed hsealed served.sealed
        ((held_links_of_unproven hunproven).2 above hop hnamed hheld)

/-! ## Where the laws end -/

def stale (op checksum parent : Nat) : PrepareHeader :=
  { dvcBlank op with view := 1, checksum, parent }

def current (op checksum parent : Nat) : PrepareHeader :=
  { dvcBlank op with view := 2, checksum, parent }

/-- View 2, whose log names nothing; op 3 awaits no proof. -/
def emptyLog : RepairLog where
  view := 2
  pending := none
  held := fun _ => none
  entryProven := fun op => op = 3

/-- View 2 names a header at op 1, where another branch is held. -/
def divergedLog : RepairLog where
  view := 2
  pending := some
    { opHead := 3, commitMax := 0, headers := [dvcBlank 3, dvcBlank 2, current 1 11 0],
      committedElsewhere := [] }
  held := fun op => if op = 1 then some (stale 1 91 0) else none
  entryProven := fun _ => false

/-- View 2 names headers at ops 1 and 2, and nothing is held. -/
def namedLog : RepairLog where
  view := 2
  pending := some
    { opHead := 2, commitMax := 0, headers := [current 2 12 11, current 1 11 0],
      committedElsewhere := [] }
  held := fun _ => none
  entryProven := fun _ => false

/-- View 2 names a sealed header at op 5 and unsealed ones with different parents at ops 1 and 2; op
4 awaits no proof. -/
def adoptedLog : RepairLog where
  view := 2
  pending := some
    { opHead := 5, commitMax := 5, headers := [current 5 15 14],
      committedElsewhere := [current 2 checksumUnsealed 8, current 1 checksumUnsealed 7] }
  held := fun _ => none
  entryProven := fun op => op = 4

variable {genuine}

theorem mem_of_pendingAt {log : MergedLog} {entry : PrepareHeader}
    (h : pendingAt (some log) op = some entry) :
    entry ∈ log.headers ++ log.committedElsewhere ∧ entry.op = op := by
  have hfind : ∀ {headers}, ViewLog.canonicalHeaderAt headers op = some entry →
      entry ∈ headers ∧ entry.op = op := by
    intro headers hfound
    have hop := find?_some hfound
    exact ⟨mem_of_find?_eq_some hfound, by simp_all⟩
  rcases or_eq_some_iff.mp h with hfound | ⟨_, hfound⟩
  · exact ⟨mem_append_left _ (hfind hfound).1, (hfind hfound).2⟩
  · exact ⟨mem_append_right _ (hfind hfound).1, (hfind hfound).2⟩

theorem Vouches.of_pending {log : MergedLog} (hpending : s.pending = some log)
    (hheld : ∀ op, s.entryProven op = true → s.held op = none)
    (intact : ∀ x ∈ log.headers ++ log.committedElsewhere, x.checksum ≠ checksumUnsealed → genuine x)
    (chained : ∀ x ∈ log.headers ++ log.committedElsewhere,
      ∀ y ∈ log.headers ++ log.committedElsewhere, y.op = x.op + 1 → links y x ≠ some false) :
    s.Vouches genuine := by
  have hvouched : ∀ op entry, s.vouchedAt op = some entry →
      entry ∈ log.headers ++ log.committedElsewhere ∧ entry.op = op := by
    intro op entry h
    have hunheld : (if s.entryProven op then s.held op else none) = none := by
      split
      · exact hheld op ‹_›
      · rfl
    rw [vouchedAt, hpending, hunheld, or_none] at h
    exact mem_of_pendingAt h
  refine ⟨fun op entry h => intact entry (hvouched op entry h).1, ?_⟩
  intro op parent child _ _ hparent hchild
  obtain ⟨hmem, rfl⟩ := hvouched _ _ hparent
  obtain ⟨hmem', hop⟩ := hvouched _ _ hchild
  exact chained parent hmem child hmem' hop

/-- Op 4 is repaired below the header the view names, and op 8 where nothing is known. -/
theorem repair_chains_adoptedLog :
    let s := (adoptedLog.repaired (stale 4 14 13)).repaired (stale 8 98 97)
    s.VouchedChained ∧
    s.vouchedAt 5 = some (current 5 15 14) ∧ s.vouchedAt 4 = some (stale 4 14 13) ∧
    s.vouchedAt 2 = some (current 2 0 8) ∧ s.vouchedAt 1 = some (current 1 0 7) ∧
    s.evidence (stale 3 13 12) = .proven ∧ (stale 4 14 13).parent = (stale 3 13 12).checksum ∧
    s.evidence (stale 9 99 98) = .unproven ∧ (stale 9 99 98).parent = (stale 8 98 97).checksum := by
  intro s
  have hvouches : adoptedLog.Vouches fun header => header.parent = header.checksum - 1 :=
    .of_pending rfl (fun _ _ => rfl) (by decide) (by decide)
  have hchains := repair_chains _ (fun a b ha hb hab => by rw [ha, hb, hab]) adoptedLog s hvouches
    (.step (.step .start ⟨by decide, by decide, by decide⟩ (.journaled (by decide) rfl))
      ⟨by decide, by decide, by decide⟩ (.journaled (by decide) (by decide)))
  have hthree := hchains.2 (stale 3 13 12) ⟨by decide, by decide, by decide⟩ (by decide) (by decide)
  have hnine := hchains.2 (stale 9 99 98) ⟨by decide, by decide, by decide⟩ (by decide) (by decide)
  refine ⟨hchains.1, by decide, by decide, by decide, by decide, by decide, ?_, by decide, ?_⟩
  · exact hthree.2.2 _ (by decide) (by decide) (.inl (by decide))
  · exact hnine.2.1 _ (by decide) (by decide) (.inr ⟨by decide, by decide, by decide⟩)

/-- **Where branches meet.** A prepare journaled while the view names nothing at its op differs from
the header that a later proven one makes it name. An unproven prepare is journaled beside an entry
of another branch held where the view names a header; one that the view's stamp proves is journaled
beside an unproven one it does not chain to; and one with the checksum the view names is journaled
whatever its parent. -/
theorem repair_splices :
    (divergedLog.VouchedChained ∧
      ∃ s, (divergedLog.repaired (stale 3 93 92)).Step (current 3 13 12) s ∧
        divergedLog.Step (stale 3 93 92) (divergedLog.repaired (stale 3 93 92)) ∧
        s.held 3 = some (stale 3 93 92) ∧ s.vouchedAt 3 = some (current 3 13 12) ∧
        (stale 3 93 92).checksum ≠ (current 3 13 12).checksum) ∧
    (divergedLog.held 2 = none ∧ divergedLog.evidence (stale 2 92 11) = .unproven ∧
      divergedLog.held 1 = some (stale 1 91 0) ∧
      (stale 2 92 11).parent ≠ (stale 1 91 0).checksum) ∧
    (emptyLog.VouchedChained ∧ emptyLog.evidence (stale 2 92 91) = .unproven ∧
      emptyLog.Step (stale 2 92 91) (emptyLog.repaired (stale 2 92 91)) ∧
      ∃ s, (emptyLog.repaired (stale 2 92 91)).Step (current 3 13 12) s ∧
        s.held 2 = some (stale 2 92 91) ∧ s.held 3 = some (current 3 13 12) ∧
        s.vouchedAt 3 = some (current 3 13 12) ∧
        (current 3 13 12).parent ≠ (stale 2 92 91).checksum) ∧
    (namedLog.VouchedChained ∧ namedLog.held 2 = none ∧
      namedLog.evidence (stale 2 12 92) = .proven ∧ namedLog.vouchedAt 1 = some (current 1 11 0) ∧
      (stale 2 12 92).parent ≠ (current 1 11 0).checksum) := by
  have hdiverged : divergedLog.Vouches fun _ => True :=
    .of_pending rfl (by simp [divergedLog]) (by simp) (by decide)
  have hnamed : namedLog.Vouches fun _ => True := .of_pending rfl (fun _ _ => rfl) (by simp) (by decide)
  refine ⟨⟨hdiverged.chained, _, .noted (by decide), .journaled (by decide) rfl, by decide, by decide,
    by decide⟩, by decide, ⟨?_, by decide, .journaled (by decide) rfl, _,
      .journaled (by decide) (by decide), by decide, by decide, by decide, by decide⟩,
    ⟨hnamed.chained, by decide, by decide, by decide, by decide⟩⟩
  simp [VouchedChained, vouchedAt, emptyLog, pendingAt]

end RepairLog

end Iggy
