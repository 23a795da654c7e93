import Iggy.Lib.Except
import Iggy.Partitions.ViewFence

/-!
# The view fence lets only the view's own log through

Two facts hold in every state of a run of a partition with its fence, its journal and the I/O lane
(`FencedPartition.Guarded`): each prepare the journal holds passed its integrity check, and a
memoized hole that is still above the commit point is not in the evicted ring, so that the index
alone answers whether it arrived. With checksums that collide for no two prepares at hand
(`CollisionFree`), the chain walk compares the window with the view's log by whole headers, entry by
entry from the anchor down.
-/

namespace Iggy

open List Lib FencedPartition Option

/-- The same prepare, whichever view sent it. -/
def PrepareHeader.SameIdentity (a b : PrepareHeader) : Prop :=
  ({ a with view := 0 } : PrepareHeader) = { b with view := 0 }

theorem PrepareHeader.SameIdentity.parent_eq {a b : PrepareHeader} (h : a.SameIdentity b) :
    a.parent = b.parent := by
  have hparent := congrArg PrepareHeader.parent h
  exact hparent

/-- No two of these prepares share a checksum of what it covers. -/
structure CollisionFree (xxh3 calculateChecksum : Bytes → Nat)
    (prepares : ResidentPrepare → Prop) : Prop where
  header : ∀ a b, prepares a → prepares b →
    a.header.identityChecksum xxh3 = b.header.identityChecksum xxh3 →
    ({ a.header with checksum := 0, view := 0 } : PrepareHeader) =
      { b.header with checksum := 0, view := 0 }
  body : ∀ a b, prepares a → prepares b →
    calculateChecksum a.frameBody = calculateChecksum b.frameBody → a.frameBody = b.frameBody

inductive FenceEvent
  | enterView (view : Nat)
  | fence (through : Nat) (anchor : Option PrepareHeader)
  | offer (header : PrepareHeader)
  /-- A replicated or a repaired prepare arrives. -/
  | append (prepare : ResidentPrepare)
  | sequence (op checksum : Nat)
  | remove (first last : Nat)
  | commit (op : Nat)
  | evict (count : Nat)
  | sortByOp
  | prove (truncates : Bool)
  | busy (historyBusy : Bool)
  | queue (transition : Option PendingTransition)
  | truncate
  | acknowledge (header : PrepareHeader) (durable persisted sent : Bool)

/-- A prepare that arrives is one of these. -/
def FenceEvent.Within (prepares : ResidentPrepare → Prop) : FenceEvent → Prop
  | .append prepare => prepares prepare
  | _ => True

namespace FencedPartition

open ResidentJournal

/-- A partition whose WAL was committed up to `recoveredCommit` when it was opened. -/
def fresh (hasIoDispatcher : Bool) (recoveredCommit ringCapacity ringBytesMax : Nat) : FencedPartition :=
  { view := 0, commitMin := 0, recoveredCommit, currentSequence := 0, lastPrepareChecksum := 0
    journal := ⟨[], .empty, 0, ringCapacity, ringBytesMax, true⟩
    viewFence := none, hasIoDispatcher, historyBusy := false, transition := none
    unprovenDropFrom := none, pendingPersistedAcks := .empty, materializationMissing := false
    fatal := none, acks := [] }

variable (xxh3 calculateChecksum : Bytes → Nat)

/-- One event; `none` where it cannot happen. A prepare that fails its integrity check is
discarded, and a flush takes nothing above the commit point while the fence holds. -/
def step (p : FencedPartition) : FenceEvent → Option FencedPartition
  | .enterView view => some { p with view }
  | .fence through anchor => some (p.fenceViewWindow through anchor)
  | .offer header => some (p.offerViewAnchor header)
  | .append prepare =>
    match verifyPrepareIntegrity xxh3 calculateChecksum prepare with
    | .error _ => some p
    | .ok () =>
      if prepare.header.op ≤ opMax then some { p with journal := p.journal.append prepare } else none
  | .sequence op checksum => some { p with currentSequence := op, lastPrepareChecksum := checksum }
  | .remove first last => p.removeResidentRange first last
  | .commit op => if p.commitMin ≤ op then some { p with commitMin := op } else none
  | .evict count =>
    if !p.viewFenced || (p.journal.entries.take count).all (·.header.op ≤ p.commitMin) then
      some { p with journal := p.journal.evictPrefix count }
    else none
  | .sortByOp => some { p with journal := p.journal.sortByOp }
  | .prove truncates => some (p.proveViewWindow truncates).2
  | .busy historyBusy => some { p with historyBusy }
  | .queue transition => some { p with transition }
  | .truncate => p.runTruncation
  | .acknowledge header durable persisted sent => some (p.sendPrepareOk header durable persisted sent)

def run (p : FencedPartition) (events : List FenceEvent) : Option FencedPartition :=
  events.foldlM (step xxh3 calculateChecksum) p

structure Guarded (prepares : ResidentPrepare → Prop) (p : FencedPartition) : Prop where
  verified : ∀ q, p.journal.Holds q → prepares q ∧ q.header.op ≤ opMax ∧
    verifyPrepareIntegrity xxh3 calculateChecksum q = .ok ()
  hole : ∀ fence ∈ p.viewFence, ∀ hole ∈ fence.hole, hole ≤ fence.through ∧
    (hole ≤ p.commitMin ∨ p.journal.evictedRing.get? hole = none)

variable {xxh3 calculateChecksum} {prepares : ResidentPrepare → Prop} {p p' : FencedPartition}

theorem Guarded.fresh (hasIoDispatcher : Bool) (recoveredCommit ringCapacity ringBytesMax : Nat) :
    Guarded xxh3 calculateChecksum prepares
      (fresh hasIoDispatcher recoveredCommit ringCapacity ringBytesMax) where
  verified q hq := by
    obtain hq | ⟨op, hq⟩ := hq
    · cases hq
    · exact nomatch hq
  hole _ hfence := absurd hfence (not_mem_none _)

/-! ## What each step does -/

variable {first : Nat}

theorem removeResidentRange_eq {last : Nat} (h : p.removeResidentRange first last = some p') :
    ∃ recoveredCommit, p' = { p with
      journal := { p.journal with entries := p.journal.entries.filter fun q =>
        !(first ≤ q.header.op && q.header.op ≤ last) }
      recoveredCommit } := by
  obtain ⟨journal, hremove, rfl⟩ := map_eq_some_iff.mp h
  obtain ⟨-, ⟨⟩⟩ := ite_none_left_eq_some.mp hremove
  exact ⟨_, rfl⟩

variable {op : Nat}

theorem holdsOp_removeResidentRange (hfits : ∀ q ∈ p.journal.entries, q.header.op ≤ opMax)
    (h : p.removeResidentRange first opMax = some p') (hop : first ≤ op) :
    p'.journal.holdsOp op = false := by
  obtain ⟨recoveredCommit, rfl⟩ := removeResidentRange_eq h
  rw [Bool.eq_false_iff]
  intro hholds
  obtain ⟨q, hq, rfl⟩ := holdsOp_iff.mp hholds
  obtain ⟨hmem, hout⟩ := mem_filter.mp hq
  simp [hop, hfits q hmem] at hout

section

variable (h : Guarded xxh3 calculateChecksum prepares p)
include h

theorem Guarded.removeResidentRange {last : Nat}
    (hremove : p.removeResidentRange first last = some p') :
    Guarded xxh3 calculateChecksum prepares p' := by
  obtain ⟨recoveredCommit, rfl⟩ := removeResidentRange_eq hremove
  exact {
    verified := fun q hq => h.verified q (hq.imp_left fun hmem => (mem_filter.mp hmem).1)
    hole := h.hole }

theorem Guarded.noteUnprovenDropped :
    Guarded xxh3 calculateChecksum prepares p.noteUnprovenDropped where
  verified := h.verified
  hole := by
    intro fence hfence
    obtain ⟨fence', -, rfl⟩ := map_eq_some_iff.mp hfence
    exact fun hole hhole => absurd hhole (not_mem_none hole)

theorem Guarded.dropUnprovenFrom (op : Nat) (truncates : Bool) :
    Guarded xxh3 calculateChecksum prepares (p.dropUnprovenFrom op truncates) := by
  unfold FencedPartition.dropUnprovenFrom
  split
  · exact { h with }
  split
  · split
    · exact h
    · exact { h with }
  split
  · exact { h with }
  split
  · exact { h with }
  case h_2 cut hcut => exact (h.removeResidentRange hcut).noteUnprovenDropped

theorem Guarded.fenceViewWindow (through : Nat) (anchor : Option PrepareHeader) :
    Guarded xxh3 calculateChecksum prepares (p.fenceViewWindow through anchor) := by
  simp only [FencedPartition.fenceViewWindow]
  split
  · exact { verified := h.verified, hole := fun _ hfence => absurd hfence (not_mem_none _) }
  · refine { verified := h.verified, hole := ?_ }
    rintro fence ⟨rfl⟩ hole hhole
    -- a kept hole is that of a fence over the same window
    obtain ⟨previous, hprevious, hhole⟩ := bind_eq_some_iff.mp hhole
    obtain ⟨hprevious, hsame⟩ := filter_eq_some_iff.mp hprevious
    have hthrough : previous.through = through := by simpa using (Bool.and_eq_true_iff.mp hsame).2
    have hold := h.hole previous hprevious hole hhole
    rwa [hthrough] at hold

theorem Guarded.offerViewAnchor (header : PrepareHeader) :
    Guarded xxh3 calculateChecksum prepares (p.offerViewAnchor header) := by
  unfold FencedPartition.offerViewAnchor
  split
  · exact h
  · split
    · refine { verified := h.verified, hole := ?_ }
      rintro fence ⟨rfl⟩
      exact fun hole hhole => absurd hhole (not_mem_none hole)
    · exact h

theorem Guarded.evict {count : Nat}
    (hcap : p.viewFenced = true → ∀ q ∈ p.journal.entries.take count, q.header.op ≤ p.commitMin) :
    Guarded xxh3 calculateChecksum prepares { p with journal := p.journal.evictPrefix count } where
  verified q hq := h.verified q (holds_of_holds_evictPrefix hq)
  hole := by
    intro fence hfence hole hhole
    obtain ⟨hthrough, hring⟩ := h.hole fence hfence hole hhole
    refine ⟨hthrough, hring.elim .inl fun hnone => ?_⟩
    cases hget : (p.journal.evictPrefix count).evictedRing.get? hole with
    | none => exact .inr rfl
    | some q =>
      obtain hold | ⟨hmem, rfl⟩ := get?_evictPrefix hget
      · rw [hnone] at hold
        cases hold
      · by_cases hfenced : p.viewFenced = true
        · exact .inl (hcap hfenced q hmem)
        · -- an evicted op above the commit point is only possible without a window above it
          have hlow : fence.through ≤ p.commitMin := by
            have hnot : ¬ p.commitMin < fence.through := fun hlt =>
              hfenced (by rw [viewFenced, hfence]; simpa using hlt)
            omega
          exact .inl (hthrough.trans hlow)

end

/-! ## The proof of a window -/

variable {floor n expected : Nat} {headerAt : Nat → Option PrepareHeader}

theorem walkViewWindow_hole (h : walkViewWindow floor headerAt n expected = .hole op) :
    floor < op ∧ op ≤ floor + n ∧ headerAt op = none := by
  induction n generalizing expected with
  | zero => exact nomatch h
  | succ n ih =>
    simp only [walkViewWindow] at h
    split at h
    case h_1 hnone =>
      obtain rfl := ViewWindowVerdict.hole.inj h
      exact ⟨by omega, by omega, hnone⟩
    case h_2 =>
      split_ifs at h
      obtain ⟨hlow, hhigh, hnone⟩ := ih h
      exact ⟨hlow, by omega, hnone⟩

theorem walkViewWindow_ne_proven (hlow : floor < op) (hhigh : op ≤ floor + n)
    (hnone : headerAt op = none) : walkViewWindow floor headerAt n expected ≠ .proven := by
  induction n generalizing expected with
  | zero => omega
  | succ n ih =>
    simp only [walkViewWindow]
    split
    · exact nofun
    case h_2 header hsome =>
      split
      · exact nofun
      · have hne : op ≠ floor + (n + 1) := by
          rintro rfl
          rw [hnone] at hsome
          exact nomatch hsome
        exact ih (by omega)

variable {log : Nat → ResidentPrepare}

/-- **The chain walk compares the window with a log.** Where a link of the window that has the
checksum of the log's entry also has its parent, a proven window has the log's checksums. -/
theorem walkViewWindow_proven (hlinked : ∀ op, floor < op → op < floor + n →
      (log (op + 1)).header.parent = (log op).header.checksum)
    (hsame : ∀ op header, floor < op → op ≤ floor + n → headerAt op = some header →
      header.checksum ≠ checksumUnsealed → header.checksum = (log op).header.checksum →
      header.parent = (log op).header.parent)
    (hexpected : 0 < n → expected = (log (floor + n)).header.checksum)
    (h : walkViewWindow floor headerAt n expected = .proven) :
    ∀ op, floor < op → op ≤ floor + n → ∃ header, headerAt op = some header ∧
      header.checksum ≠ checksumUnsealed ∧ header.checksum = (log op).header.checksum := by
  induction n generalizing expected with
  | zero => intro op hlow hhigh; omega
  | succ n ih =>
    simp only [walkViewWindow] at h
    split at h
    · exact nomatch h
    rename_i header hsome
    split_ifs at h with hlink
    obtain ⟨hsealed, heq⟩ := not_or.mp hlink
    have hchecksum : header.checksum = (log (floor + (n + 1))).header.checksum :=
      (not_not.mp heq).trans (hexpected (Nat.succ_pos n))
    -- the entry at the top is the log's, so its parent is the log's checksum one below
    have hnext : 0 < n → header.parent = (log (floor + n)).header.checksum := fun hn =>
      (hsame _ header (by omega) (le_refl _) hsome hsealed hchecksum).trans
        (hlinked (floor + n) (by omega) (by omega))
    intro op hlow hhigh
    obtain rfl | hlt := Nat.eq_or_lt_of_le hhigh
    · exact ⟨header, hsome, hsealed, hchecksum⟩
    · exact ih (fun op hl hh => hlinked op hl (by omega))
        (fun op q hl hh => hsame op q hl (by omega)) hnext h op hlow (by omega)

theorem divergentCopy_eq_none {through : Nat} (h : p.divergentCopy floor through = none)
    (hlow : floor < op) (hhigh : op ≤ through) {header : PrepareHeader} {flushed : ResidentPrepare}
    (hheader : p.journal.repairHeader op = some header)
    (hflushed : p.journal.repairEntry op = some flushed) :
    flushed.header.checksum = header.checksum := by
  have hmem : op ∈ List.range' (floor + 1) (through - floor) := mem_range'_1.mpr (by omega)
  have hnot := find?_eq_none.mp h op hmem
  simpa [hheader, hflushed] using hnot

theorem walkViewWindow_break (h : walkViewWindow floor headerAt n expected = .break op) :
    floor < op := by
  induction n generalizing expected with
  | zero => exact nomatch h
  | succ n ih =>
    simp only [walkViewWindow] at h
    split at h
    · exact nomatch h
    split at h
    · obtain rfl := ViewWindowVerdict.break.inj h
      omega
    · exact ih h

theorem lt_of_divergentCopy {through : Nat} (h : p.divergentCopy floor through = some op) :
    floor < op := by
  have hmem := mem_range'_1.mp (mem_of_find?_eq_some h)
  omega

variable {truncates : Bool}

inductive ProofOutcome (p : FencedPartition) (truncates : Bool) :
    Option ViewWindowVerdict → FencedPartition → Prop
  | idle : ProofOutcome p truncates none p
  | empty {fence : ViewFence} (hfence : p.viewFence = some fence)
      (hlow : fence.through ≤ p.fenceFloor) :
      ProofOutcome p truncates (some .proven) { p with viewFence := none }
  | memoized {fence : ViewFence} {anchor : PrepareHeader} {hole : Nat}
      (hfence : p.viewFence = some fence) (hanchor : fence.anchor = some anchor)
      (hopen : p.openHole fence = some hole) : ProofOutcome p truncates (some (.hole hole)) p
  | proven {fence : ViewFence} {anchor : PrepareHeader} (hfence : p.viewFence = some fence)
      (hanchor : fence.anchor = some anchor)
      (hverdict : viewWindowVerdict p.fenceFloor fence.through anchor.parent p.journal.repairHeader =
        .proven)
      (hcopies : p.divergentCopy p.fenceFloor fence.through = none) :
      ProofOutcome p truncates (some .proven) (p.liftFence fence.through)
  | hole {fence : ViewFence} {anchor : PrepareHeader} {op : Nat} (hfence : p.viewFence = some fence)
      (hanchor : fence.anchor = some anchor) (hwindow : p.fenceFloor < fence.through)
      (hverdict : viewWindowVerdict p.fenceFloor fence.through anchor.parent p.journal.repairHeader =
        .hole op) :
      ProofOutcome p truncates (some (.hole op))
        { p with viewFence := some { fence with hole := some op } }
  | break {op : Nat} (hlow : p.fenceFloor < op) :
      ProofOutcome p truncates (some (.break op)) (p.dropUnprovenFrom op truncates)

theorem proveViewWindow_outcome (p : FencedPartition) (truncates : Bool) :
    ProofOutcome p truncates (p.proveViewWindow truncates).1 (p.proveViewWindow truncates).2 := by
  unfold proveViewWindow
  cases hfence : p.viewFence with
  | none => exact .idle
  | some fence =>
    by_cases hlow : fence.through ≤ p.fenceFloor
    · simp only [if_pos hlow]
      exact .empty hfence hlow
    simp only [if_neg hlow]
    cases hanchor : fence.anchor with
    | none => exact .idle
    | some anchor =>
      cases hopen : p.openHole fence with
      | some hole => exact .memoized hfence hanchor hopen
      | none =>
        simp only [judgeViewWindow]
        cases hverdict :
            viewWindowVerdict p.fenceFloor fence.through anchor.parent p.journal.repairHeader with
        | proven =>
          cases hcopies : p.divergentCopy p.fenceFloor fence.through with
          | none => exact .proven hfence hanchor hverdict hcopies
          | some op => exact .break (lt_of_divergentCopy hcopies)
        | hole op => exact .hole hfence hanchor (not_le.mp hlow) hverdict
        | «break» op => exact .break (walkViewWindow_break hverdict)

variable {fence : ViewFence}

section

variable (h : Guarded xxh3 calculateChecksum prepares p)
include h

theorem Guarded.proveViewWindow (truncates : Bool) :
    Guarded xxh3 calculateChecksum prepares (p.proveViewWindow truncates).2 := by
  have hout := proveViewWindow_outcome p truncates
  generalize (p.proveViewWindow truncates).1 = verdict, (p.proveViewWindow truncates).2 = p' at hout
  cases hout with
  | idle | memoized => exact h
  | empty | proven =>
    exact { verified := h.verified, hole := fun _ hfence => absurd hfence (not_mem_none _) }
  | @hole fence _ op hfence hanchor hwindow hverdict =>
    refine { verified := h.verified, hole := ?_ }
    rintro fence' ⟨rfl⟩ hole ⟨rfl⟩
    obtain ⟨-, hhigh, hnone⟩ := walkViewWindow_hole hverdict
    exact ⟨by show op ≤ fence.through; omega,
      .inr (repairHeader_eq_none.mp hnone).2⟩
  | «break» => exact h.dropUnprovenFrom _ truncates

theorem Guarded.runTruncation (hcut : p.runTruncation = some p') :
    Guarded xxh3 calculateChecksum prepares p' := by
  unfold FencedPartition.runTruncation at hcut
  split at hcut
  case h_2 => exact nomatch hcut
  rename_i first last _
  obtain ⟨cut, hremove, rfl⟩ := map_eq_some_iff.mp hcut
  have hkept := Guarded.removeResidentRange
    (p := { p with transition := none, unprovenDropFrom := _ }) { h with } hremove
  split
  · exact hkept.noteUnprovenDropped
  · exact hkept

theorem Guarded.step {event : FenceEvent} (hwithin : event.Within prepares)
    (hstep : p.step xxh3 calculateChecksum event = some p') :
    Guarded xxh3 calculateChecksum prepares p' := by
  cases event with
  | enterView view | sequence op checksum | busy historyBusy | queue transition =>
    cases hstep
    exact { h with }
  | fence through anchor => exact some.inj hstep ▸ h.fenceViewWindow through anchor
  | offer header => exact some.inj hstep ▸ h.offerViewAnchor header
  | append prepare =>
    simp only [FencedPartition.step] at hstep
    split at hstep
    · exact some.inj hstep ▸ h
    case h_2 hok =>
      obtain ⟨hfits, ⟨⟩⟩ := ite_none_right_eq_some.mp hstep
      refine { verified := fun q hq => ?_, hole := h.hole }
      obtain rfl | hq := holds_append hq
      · exact ⟨hwithin, hfits, hok⟩
      · exact h.verified q hq
  | remove first last => exact h.removeResidentRange hstep
  | commit op =>
    obtain ⟨hle, ⟨⟩⟩ := ite_none_right_eq_some.mp hstep
    exact {
      verified := h.verified
      hole := fun fence hfence hole hhole =>
        (h.hole fence hfence hole hhole).imp_right (·.imp_left (·.trans hle)) }
  | evict count =>
    obtain ⟨hcap, ⟨⟩⟩ := ite_none_right_eq_some.mp hstep
    exact h.evict fun hfenced => by simpa [hfenced] using hcap
  | sortByOp =>
    cases hstep
    exact {
      verified := fun q hq => h.verified q (holds_sortByOp.mp hq)
      hole := h.hole }
  | prove truncates => exact some.inj hstep ▸ h.proveViewWindow truncates
  | truncate => exact h.runTruncation hstep
  | acknowledge header durable persisted sent =>
    cases hstep
    unfold sendPrepareOk
    repeat' split
    all_goals exact { h with }

theorem Guarded.run {events : List FenceEvent} (hwithin : ∀ event ∈ events, event.Within prepares)
    (hrun : p.run xxh3 calculateChecksum events = some p') :
    Guarded xxh3 calculateChecksum prepares p' :=
  foldlM_some_invariant _ (fun _ _ e he h hstep => h.step (hwithin e he) hstep) h hrun

end

/-! ## Proven windows -/

/-- What the journal and its flush hold at `op` is this prepare. -/
def HoldsCopyOf (p : FencedPartition) (op : Nat) (prepare : ResidentPrepare) : Prop :=
  ∃ header flushed, p.journal.repairHeader op = some header ∧
    p.journal.repairEntry op = some flushed ∧ header.SameIdentity prepare.header ∧
    flushed.header.SameIdentity prepare.header ∧
    (prepare.header.checksumBody ≠ 0 → flushed.frameBody = prepare.frameBody)

/-- A log that over `(floor, through]` holds verified prepares, each the parent of the next and the
last one that of the anchor. -/
structure ViewLog (xxh3 calculateChecksum : Bytes → Nat) (prepares : ResidentPrepare → Prop)
    (floor through : Nat) (anchor : PrepareHeader) (log : Nat → ResidentPrepare) : Prop where
  within : ∀ op, floor < op → op ≤ through → prepares (log op)
  verified : ∀ op, floor < op → op ≤ through →
    verifyPrepareIntegrity xxh3 calculateChecksum (log op) = .ok ()
  anchored : anchor.parent = (log through).header.checksum
  linked : ∀ op, floor < op → op < through → (log (op + 1)).header.parent = (log op).header.checksum

/-- Up to a body that it does not cover. -/
theorem sameIdentity_of_checksum (hfree : CollisionFree xxh3 calculateChecksum prepares)
    {a b : ResidentPrepare} (ha : prepares a) (hb : prepares b)
    (hva : verifyPrepareIntegrity xxh3 calculateChecksum a = .ok ())
    (hvb : verifyPrepareIntegrity xxh3 calculateChecksum b = .ok ())
    (hsealed : a.header.checksum ≠ checksumUnsealed)
    (heq : a.header.checksum = b.header.checksum) :
    a.header.SameIdentity b.header ∧ (b.header.checksumBody ≠ 0 → a.frameBody = b.frameBody) := by
  obtain ⟨hia, hba⟩ := verifyPrepareIntegrity_eq_ok.mp hva
  obtain ⟨hib, hbb⟩ := verifyPrepareIntegrity_eq_ok.mp hvb
  have hcovered := hfree.header a b ha hb (by rw [hia hsealed, hib (heq ▸ hsealed), heq])
  -- the two covered headers differ from the headers in `checksum` and `view` only
  have hwhole : ({ a.header with checksum := a.header.checksum, view := 0 } : PrepareHeader) =
      { b.header with checksum := b.header.checksum, view := 0 } := by
    rw [heq]
    exact congrArg (fun h : PrepareHeader => { h with checksum := b.header.checksum }) hcovered
  have hbody := congrArg PrepareHeader.checksumBody hwhole
  dsimp only at hbody
  refine ⟨hwhole, fun hcovers => hfree.body a b ha hb ?_⟩
  rw [hba (hbody ▸ hcovers), hbb hcovers, hbody]

variable {anchor : PrepareHeader}

theorem Guarded.holdsCopyOf (h : Guarded xxh3 calculateChecksum prepares p)
    (hfree : CollisionFree xxh3 calculateChecksum prepares)
    (hlog : ViewLog xxh3 calculateChecksum prepares p.fenceFloor fence.through anchor log)
    (hproven : viewWindowVerdict p.fenceFloor fence.through anchor.parent p.journal.repairHeader =
      .proven)
    (hcopies : p.divergentCopy p.fenceFloor fence.through = none) (hlow : p.fenceFloor < op)
    (hhigh : op ≤ fence.through) : p.HoldsCopyOf op (log op) := by
  have hspan : p.fenceFloor + (fence.through - p.fenceFloor) = fence.through := by omega
  have hsame (op : Nat) (hl : p.fenceFloor < op) (hh : op ≤ fence.through) (q : ResidentPrepare)
      (hq : p.journal.Holds q) (hsealed : q.header.checksum ≠ checksumUnsealed)
      (heq : q.header.checksum = (log op).header.checksum) :
      q.header.SameIdentity (log op).header ∧
        ((log op).header.checksumBody ≠ 0 → q.frameBody = (log op).frameBody) :=
    sameIdentity_of_checksum hfree (h.verified q hq).1 (hlog.within op hl hh) (h.verified q hq).2.2
      (hlog.verified op hl hh) hsealed heq
  obtain ⟨header, hheader, hsealed, hchecksum⟩ := walkViewWindow_proven
    (fun op hl hh => hlog.linked op hl (hspan ▸ hh))
    (fun op header hl hh hheader hsealed hchecksum => by
      obtain ⟨q, hq, rfl⟩ := exists_of_repairHeader hheader
      exact (hsame op hl (hspan ▸ hh) q hq hsealed hchecksum).1.parent_eq)
    (fun _ => by rw [hspan]; exact hlog.anchored) hproven op hlow (by rwa [hspan])
  obtain ⟨flushed, hflushed⟩ := exists_repairEntry hheader
  obtain ⟨q, hq, rfl⟩ := exists_of_repairHeader hheader
  have hcopy := divergentCopy_eq_none hcopies hlow hhigh hheader hflushed
  exact ⟨q.header, flushed, hheader, hflushed, (hsame op hlow hhigh q hq hsealed hchecksum).1,
    hsame op hlow hhigh flushed (holds_of_repairEntry hflushed) (hcopy ▸ hsealed)
      (hcopy.trans hchecksum)⟩

/-! ## Breaks, holes and acknowledgements -/

/-- Nothing is resident from `op` on. -/
def CutFrom (p : FencedPartition) (op : Nat) : Prop := ∀ op', op ≤ op' → p.journal.holdsOp op' = false

/-- What a break at `op` leaves: the cut, the cut queued for the I/O lane, everything as it was
while other work holds the lane, or a partition that is fatal. -/
def BreakLeaves (p : FencedPartition) (op : Nat) (truncates : Bool) (p' : FencedPartition) : Prop :=
  p'.viewFenced = p.viewFenced ∧
  if p.journal.holdsOp op = false ∨ p.hasIoDispatcher = false ∧ truncates = false then
    p'.fatal = some op
  else if p.hasIoDispatcher = false then p'.CutFrom op
  else if p.viewProofDeferred then p' = p
  else p'.transition = some (.truncate op opMax)

theorem viewFenced_noteUnprovenDropped (p : FencedPartition) :
    p.noteUnprovenDropped.viewFenced = p.viewFenced := by
  unfold viewFenced noteUnprovenDropped
  cases p.viewFence <;> rfl

theorem Guarded.cutFrom (h : Guarded xxh3 calculateChecksum prepares p)
    (hcut : p.removeResidentRange op opMax = some p') : p'.CutFrom op := fun _ hop =>
  holdsOp_removeResidentRange (fun q hq => (h.verified q (.inl hq)).2.1) hcut hop

theorem dropUnprovenFrom_inline (hpos : 0 < op) (hholds : p.journal.holdsOp op = true)
    (hinline : p.hasIoDispatcher = false) :
    ∃ cut, p.removeResidentRange op opMax = some cut ∧ cut.viewFence = p.viewFence ∧
      cut.commitMin = p.commitMin ∧ p.dropUnprovenFrom op true = cut.noteUnprovenDropped := by
  have hsome : (p.removeResidentRange op opMax).isSome = true := by
    have hne : op ≠ 0 := by omega
    simp [removeResidentRange, removeRange, hne]
  obtain ⟨cut, hcut⟩ := isSome_iff_exists.mp hsome
  have heq : p.dropUnprovenFrom op true = cut.noteUnprovenDropped := by
    simp [dropUnprovenFrom, hholds, hinline, hcut]
  obtain ⟨recoveredCommit, rfl⟩ := removeResidentRange_eq hcut
  exact ⟨_, hcut, rfl, rfl, heq⟩

section

variable (h : Guarded xxh3 calculateChecksum prepares p)
include h

theorem Guarded.breakLeaves (hpos : 0 < op) (truncates : Bool) :
    p.BreakLeaves op truncates (p.dropUnprovenFrom op truncates) := by
  cases hholds : p.journal.holdsOp op with
  | false => simp [BreakLeaves, FencedPartition.dropUnprovenFrom, hholds, viewFenced]
  | true =>
    cases hmounted : p.hasIoDispatcher with
    | true =>
      by_cases hbusy : p.viewProofDeferred = true <;>
        simp [BreakLeaves, FencedPartition.dropUnprovenFrom, hholds, hmounted, hbusy, viewFenced]
    | false =>
      cases truncates with
      | false => simp [BreakLeaves, FencedPartition.dropUnprovenFrom, hholds, hmounted, viewFenced]
      | true =>
        obtain ⟨cut, hcut, hfence, hcommit, heq⟩ := dropUnprovenFrom_inline hpos hholds hmounted
        have hfenced : cut.viewFenced = p.viewFenced := by rw [viewFenced, hfence, hcommit]; rfl
        have hgone : cut.noteUnprovenDropped.CutFrom op := fun op' => h.cutFrom hcut op'
        simp [BreakLeaves, heq, hholds, hmounted, viewFenced_noteUnprovenDropped, hfenced, hgone]

theorem Guarded.prove_break (hbreak : (p.proveViewWindow truncates).1 = some (.break op)) :
    p.BreakLeaves op truncates (p.proveViewWindow truncates).2 := by
  have hout := proveViewWindow_outcome p truncates
  rw [hbreak] at hout
  generalize (p.proveViewWindow truncates).2 = p' at hout
  cases hout with
  | «break» hlow => exact h.breakLeaves (by omega) truncates

theorem Guarded.runTruncation_cutFrom (hqueued : p.transition = some (.truncate op opMax))
    (hcut : p.runTruncation = some p') : p'.CutFrom op := by
  simp only [FencedPartition.runTruncation, hqueued] at hcut
  obtain ⟨cut, hremove, rfl⟩ := map_eq_some_iff.mp hcut
  have hgone : cut.CutFrom op := Guarded.cutFrom
    (p := { p with transition := none, unprovenDropFrom := _ }) { h with } hremove
  split <;> exact hgone

def forgetHole (p : FencedPartition) : FencedPartition :=
  { p with viewFence := p.viewFence.map fun fence => { fence with hole := none } }

theorem Guarded.prove_hole (hhole : (p.proveViewWindow truncates).1 = some (.hole op)) :
    ∃ fence, p.viewFence = some fence ∧
      p.fenceFloor < op ∧ op ≤ fence.through ∧ p.journal.repairHeader op = none := by
  have hout := proveViewWindow_outcome p truncates
  rw [hhole] at hout
  generalize (p.proveViewWindow truncates).2 = p' at hout
  cases hout with
  | @memoized fence _ _ hfence _ hopen =>
    obtain ⟨hmemo, hmissing⟩ := filter_eq_some_iff.mp hopen
    simp only [Bool.and_eq_true, decide_eq_true_eq, Bool.not_eq_true'] at hmissing
    obtain ⟨hthrough, hring⟩ := h.hole fence hfence op hmemo
    have habove : ¬ op ≤ p.commitMin := not_le.mpr ((le_max_left _ _).trans_lt hmissing.1)
    exact ⟨fence, hfence, hmissing.1, hthrough,
      repairHeader_eq_none.mpr ⟨hmissing.2, hring.resolve_left habove⟩⟩
  | hole hfence _ hwindow hverdict =>
    obtain ⟨hlow, hhigh, hnone⟩ := walkViewWindow_hole hverdict
    exact ⟨_, hfence, hlow, by omega, hnone⟩

theorem Guarded.hole_not_proven (hhole : (p.proveViewWindow truncates).1 = some (.hole op)) :
    (p.forgetHole.proveViewWindow truncates).1 ≠ some .proven := by
  obtain ⟨fence, hfence, hlow, hhigh, hnone⟩ := h.prove_hole hhole
  intro hproven
  have hforgot : p.forgetHole.viewFence = some { fence with hole := none } := by
    simp [forgetHole, hfence]
  have hfloor : p.forgetHole.fenceFloor = p.fenceFloor := rfl
  have hout := proveViewWindow_outcome p.forgetHole truncates
  rw [hproven] at hout
  generalize (p.forgetHole.proveViewWindow truncates).2 = p' at hout
  cases hout with
  | empty hfence' hempty =>
    cases hforgot.symm.trans hfence'
    exact absurd (hempty.trans_lt hlow) (not_lt.mpr hhigh)
  | proven hfence' _ hverdict =>
    cases hforgot.symm.trans hfence'
    refine walkViewWindow_ne_proven (hfloor ▸ hlow) ?_ hnone hverdict
    show op ≤ p.forgetHole.fenceFloor + (fence.through - p.forgetHole.fenceFloor)
    omega

end

theorem acks_dropUnprovenFrom (p : FencedPartition) (op : Nat) (truncates : Bool) :
    (p.dropUnprovenFrom op truncates).acks = p.acks := by
  unfold dropUnprovenFrom
  split
  · rfl
  split
  · split <;> rfl
  split
  · rfl
  split
  · rfl
  case h_2 cut hcut =>
    obtain ⟨recoveredCommit, rfl⟩ := removeResidentRange_eq hcut
    rfl

theorem acks_proveViewWindow (p : FencedPartition) (truncates : Bool) :
    (p.proveViewWindow truncates).2.acks = p.acks := by
  have hout := proveViewWindow_outcome p truncates
  generalize (p.proveViewWindow truncates).1 = verdict, (p.proveViewWindow truncates).2 = p' at hout
  cases hout with
  | «break» => exact acks_dropUnprovenFrom ..
  | _ => rfl

theorem acks_step (hfenced : p.viewFenced = true) {event : FenceEvent}
    (hstep : p.step xxh3 calculateChecksum event = some p') : p'.acks = p.acks := by
  cases event with
  | enterView view | sequence op checksum | busy historyBusy | queue transition | sortByOp =>
    cases hstep
    rfl
  | fence through anchor =>
    cases hstep
    simp only [fenceViewWindow]
    split <;> rfl
  | offer header =>
    cases hstep
    unfold offerViewAnchor
    split
    · rfl
    · split <;> rfl
  | append prepare =>
    simp only [step] at hstep
    split at hstep
    · exact some.inj hstep ▸ rfl
    · obtain ⟨-, ⟨⟩⟩ := ite_none_right_eq_some.mp hstep
      rfl
  | remove first last =>
    obtain ⟨recoveredCommit, rfl⟩ := removeResidentRange_eq hstep
    rfl
  | commit op | evict count =>
    obtain ⟨-, ⟨⟩⟩ := ite_none_right_eq_some.mp hstep
    rfl
  | prove truncates => exact some.inj hstep ▸ acks_proveViewWindow p truncates
  | truncate =>
    simp only [step, runTruncation] at hstep
    split at hstep
    case h_2 => exact nomatch hstep
    obtain ⟨cut, hremove, rfl⟩ := map_eq_some_iff.mp hstep
    obtain ⟨recoveredCommit, rfl⟩ := removeResidentRange_eq hremove
    split <;> rfl
  | acknowledge header durable persisted sent =>
    cases hstep
    rw [sendPrepareOk, if_pos hfenced]
    split <;> rfl

theorem Guarded.prove_proven (h : Guarded xxh3 calculateChecksum prepares p)
    (hfree : CollisionFree xxh3 calculateChecksum prepares) (hfence : p.viewFence = some fence)
    (hanchor : fence.anchor = some anchor)
    (hlog : ViewLog xxh3 calculateChecksum prepares p.fenceFloor fence.through anchor log)
    (hproven : (p.proveViewWindow truncates).1 = some .proven) (hlow : p.fenceFloor < op)
    (hhigh : op ≤ fence.through) : p.HoldsCopyOf op (log op) := by
  have hout := proveViewWindow_outcome p truncates
  rw [hproven] at hout
  generalize (p.proveViewWindow truncates).2 = p' at hout
  cases hout with
  | empty hfence' hempty =>
    cases hfence'.symm.trans hfence
    omega
  | proven hfence' hanchor' hverdict hcopies =>
    cases hfence'.symm.trans hfence
    cases hanchor'.symm.trans hanchor
    exact h.holdsCopyOf hfree hlog hverdict hcopies hlow hhigh

end FencedPartition

open FencedPartition

/-- **The fence lets only the view's own log through.** In every state of every run: a window that a
proof lifts holds the log's prepares, in the index and in what a flush writes; a break cuts the
suffix, queues the cut, or waits for the lane with the fence in place; no event sends an
acknowledgement while the fence holds; and a memoized hole never hides a proof. -/
theorem fence_passes_only_view_log {xxh3 calculateChecksum : Bytes → Nat}
    {prepares : ResidentPrepare → Prop} (hfree : CollisionFree xxh3 calculateChecksum prepares)
    {hasIoDispatcher : Bool} {recoveredCommit ringCapacity ringBytesMax : Nat}
    {events : List FenceEvent}
    (hwithin : ∀ event ∈ events, event.Within prepares) {p : FencedPartition}
    (hrun : (fresh hasIoDispatcher recoveredCommit ringCapacity ringBytesMax).run xxh3
      calculateChecksum events = some p) :
    (∀ fence anchor log truncates, p.viewFence = some fence → fence.anchor = some anchor →
      ViewLog xxh3 calculateChecksum prepares p.fenceFloor fence.through anchor log →
      (p.proveViewWindow truncates).1 = some .proven →
      ∀ op, p.fenceFloor < op → op ≤ fence.through → p.HoldsCopyOf op (log op)) ∧
    (∀ truncates op, (p.proveViewWindow truncates).1 = some (.break op) →
      p.BreakLeaves op truncates (p.proveViewWindow truncates).2) ∧
    (∀ op p', p.transition = some (.truncate op opMax) →
      p.runTruncation = some p' → p'.CutFrom op) ∧
    (∀ event p', p.viewFenced = true → p.step xxh3 calculateChecksum event = some p' →
      p'.acks = p.acks) ∧
    (∀ truncates op, (p.proveViewWindow truncates).1 = some (.hole op) →
      (p.forgetHole.proveViewWindow truncates).1 ≠ some .proven) := by
  have h := (Guarded.fresh ..).run hwithin hrun
  exact ⟨fun fence anchor log truncates hfence hanchor hlog hproven op hlow hhigh =>
      h.prove_proven hfree hfence hanchor hlog hproven hlow hhigh,
    fun truncates op hbreak => h.prove_break hbreak,
    fun op p' hqueued hcut => h.runTruncation_cutFrom hqueued hcut,
    fun event p' hfenced hstep => acks_step hfenced hstep,
    fun truncates op hhole => h.hole_not_proven hhole⟩

/-! ## Concrete windows -/

/-- A small hash that tells the prepares below apart: of a header it reads the request number. -/
def mixHash (bs : Bytes) : Nat := 1 + leNat (bs.take 1) + leNat ((bs.drop 200).take 1)

/-- A sealed produce prepare with a one-byte body, which no body checksum covers. -/
def producePrepare (op parent request : Nat) (byte : UInt8) : ResidentPrepare :=
  let header : PrepareHeader :=
    { command := .prepare, operation := .sendMessages, op, parent, request, size := headerSize + 1 }
  ⟨{ header with checksum := header.identityChecksum mixHash }, [byte]⟩

def firstProduce : ResidentPrepare := producePrepare 1 0 1 10
def secondProduce : ResidentPrepare := producePrepare 2 firstProduce.header.checksum 2 20
def anchorProduce : ResidentPrepare := producePrepare 3 secondProduce.header.checksum 3 30

/-- What an isolated old primary journaled at op 2. -/
def staleProduce : ResidentPrepare := producePrepare 2 firstProduce.header.checksum 9 20

/-- The second prepare with other bytes under the same header. -/
def alteredProduce : ResidentPrepare := producePrepare 2 firstProduce.header.checksum 2 21

def windowEvents (second : ResidentPrepare) : List FenceEvent :=
  [.append firstProduce, .append second, .fence 2 (some anchorProduce.header), .busy true]

def windowLog (op : Nat) : ResidentPrepare := if op = 1 then firstProduce else secondProduce

theorem collisionFree_window : CollisionFree mixHash mixHash
    (· ∈ [firstProduce, secondProduce, alteredProduce]) := by
  have hheader : ∀ a ∈ [firstProduce, secondProduce, alteredProduce],
      ∀ b ∈ [firstProduce, secondProduce, alteredProduce],
      a.header.identityChecksum mixHash = b.header.identityChecksum mixHash →
      ({ a.header with checksum := 0, view := 0 } : PrepareHeader) =
        { b.header with checksum := 0, view := 0 } := by decide +kernel
  have hbody : ∀ a ∈ [firstProduce, secondProduce, alteredProduce],
      ∀ b ∈ [firstProduce, secondProduce, alteredProduce],
      mixHash a.frameBody = mixHash b.frameBody → a.frameBody = b.frameBody := by decide +kernel
  exact ⟨fun a b ha hb => hheader a ha b hb, fun a b ha hb => hbody a ha b hb⟩

/-- A mounted partition keeps a broken suffix while other work holds the lane, and a produce body
is not covered by the checksum that the chain compares. -/
theorem fence_break_waits_and_body_unsealed :
    (((fresh true 0 8 8192).run mixHash mixHash (windowEvents staleProduce)).map fun p =>
      ((p.proveViewWindow true).1, (p.proveViewWindow true).2.journal.holdsOp 2)) =
      some (some (.break 2), true) ∧
    (((fresh false 0 8 8192).run mixHash mixHash (windowEvents alteredProduce)).map
      fun p => ((p.proveViewWindow true).1, p.journal.repairEntry 2)) =
      some (some .proven, some alteredProduce) ∧
    alteredProduce.header = secondProduce.header ∧
    alteredProduce.frameBody ≠ secondProduce.frameBody := by
  decide +kernel

theorem fence_passes_own_window :
    ∃ p, (fresh true 0 8 8192).run mixHash mixHash (windowEvents secondProduce) = some p ∧
      (p.proveViewWindow true).1 = some .proven ∧ p.HoldsCopyOf 1 firstProduce ∧
      p.HoldsCopyOf 2 secondProduce := by
  have hstate : (((fresh true 0 8 8192).run mixHash mixHash
      (windowEvents secondProduce)).map fun p =>
      (p.viewFence, p.fenceFloor, (p.proveViewWindow true).1)) =
      some (some ⟨0, 2, some anchorProduce.header, none⟩, 0, some .proven) := by decide +kernel
  obtain ⟨p, hrun, hp⟩ := map_eq_some_iff.mp hstate
  obtain ⟨hfence, hfloor, hproven⟩ : p.viewFence = some ⟨0, 2, some anchorProduce.header, none⟩ ∧
    p.fenceFloor = 0 ∧ (p.proveViewWindow true).1 = some .proven := by simpa using hp
  have hlog : ViewLog mixHash mixHash
      (· ∈ [firstProduce, secondProduce, alteredProduce]) p.fenceFloor 2 anchorProduce.header
      windowLog := by
    rw [hfloor]
    refine ⟨fun op hlow hhigh => ?_, fun op hlow hhigh => ?_, by decide +kernel, fun op hlow hhigh => ?_⟩
    · obtain rfl | rfl : op = 1 ∨ op = 2 := by omega
      all_goals decide +kernel
    · obtain rfl | rfl : op = 1 ∨ op = 2 := by omega
      all_goals decide +kernel
    · obtain rfl : op = 1 := by omega
      decide +kernel
  have hwindow := (fence_passes_only_view_log collisionFree_window
    (by simp [windowEvents, FenceEvent.Within]) hrun).1 _ _ windowLog true hfence rfl hlog hproven
  exact ⟨p, hrun, hproven, hwindow 1 (by omega) (by decide), hwindow 2 (by omega) (by decide)⟩

end Iggy
