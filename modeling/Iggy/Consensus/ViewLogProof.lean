import Iggy.Consensus.Merge

/-!
# Proving the held log against the view

Source: plane_helpers.rs:934-1044.

After a view change a replica holds entries that may belong to abandoned branches. `viewLogProof`
walks down from the head of the view along the hash chain; where it contradicts held entries the
caller removes them and proves again. `assigned` is the checksum the chain expects at an op; every
answer is about it.
-/

namespace Iggy

inductive ViewLogProof
  | proven
  | missing (op unprovenThrough : Nat)
  | divergent (first last : Nat)
  deriving DecidableEq

namespace ViewLog

section Source

variable (canonical : List PrepareHeader) (headerAt : Nat → Option PrepareHeader)

def canonicalHeaderAt (op : Nat) : Option PrepareHeader :=
  canonical.find? fun header => header.op = op && dvcHeaderKind header ≠ .blank

/-- A sealed entry with the checksum the chain expects. -/
def OnChain (header : PrepareHeader) (expected : Nat) : Prop :=
  header.checksum ≠ checksumUnsealed ∧ header.checksum = expected

instance (header : PrepareHeader) (expected : Nat) : Decidable (OnChain header expected) :=
  inferInstanceAs (Decidable (_ ∧ _))

/-- The view's header at an op, if it is on the chain. -/
def named (op expected : Nat) : Option PrepareHeader :=
  (canonicalHeaderAt canonical op).filter fun header => OnChain header expected

/-- The loop of `locally_proven_commit`, with the ops left up to `u64::MAX`. -/
def provenFrom : (left op : Nat) → (parent : Option Nat) → (proven : Nat) → Nat
  | 0, _, _, proven => proven
  | left + 1, op, parent, proven => match headerAt (op + 1) with
    | none => proven
    | some held =>
      if held.checksum = checksumUnsealed ∨ (parent.any fun checksum => held.parent ≠ checksum) then
        proven
      else provenFrom left (op + 1) (some held.checksum) (max proven (min held.commit op))

def locallyProvenCommit (commitFloor : Nat) : Nat :=
  provenFrom headerAt (2 ^ 64 - 1 - commitFloor) commitFloor none commitFloor

/-- The loop of `divergent_run_first`, at `first = proven + above + 1`. -/
def divergentRunFirst (proven : Nat) : (above expected : Nat) → Nat
  | 0, _ => proven + 1
  | above + 1, expected => match named canonical (proven + above + 2) expected with
    | none => proven + above + 2
    | some header => match headerAt (proven + above + 1) with
      | none => proven + above + 2
      | some held =>
        if OnChain held header.parent then proven + above + 2
        else divergentRunFirst proven above header.parent

/-- The loop of `view_log_proof`, at `op = proven + above`. -/
def walk (proven : Nat) : (above expected : Nat) → (missing : Option Nat) → ViewLogProof
  | 0, _, none => .proven
  | 0, _, some op => .missing op 0
  | above + 1, expected, missing =>
    let op := proven + above + 1
    let found := match headerAt op with
      | some held => some (held, missing)
      | none => (named canonical op expected).map fun header => (header, some op)
    match found with
    | none => .missing op op
    | some (header, missing) =>
      if header.checksum = checksumUnsealed ∨ header.checksum ≠ expected then
        .divergent (divergentRunFirst canonical headerAt proven above expected) op
      else walk proven above header.parent missing

end Source

end ViewLog

open ViewLog Option

def headOfView (canonical : List PrepareHeader) (opHead : Nat) : Option PrepareHeader :=
  canonical.head?.filter fun head => head.op = opHead && dvcHeaderKind head ≠ .blank

def viewLogProof (commitFloor : Nat) (canonical : List PrepareHeader) (opHead : Nat)
    (headerAt : Nat → Option PrepareHeader) : ViewLogProof :=
  let proven := locallyProvenCommit headerAt commitFloor
  if opHead ≤ proven then .proven
  else match headOfView canonical opHead with
    | none => .missing opHead opHead
    | some head => walk canonical headerAt proven (opHead - proven) head.checksum none

namespace ViewLog

/-! ## The chain of the view -/

section Chain

variable (canonical : List PrepareHeader) (headerAt : Nat → Option PrepareHeader)

/-- The held entry, or the view's header. -/
def chainEntry (op expected : Nat) : Option PrepareHeader :=
  ((headerAt op).filter fun held => OnChain held expected).or (named canonical op expected)

/-- By the distance from the head. -/
def assignedBelow (opHead checksum : Nat) : Nat → Option Nat
  | 0 => some checksum
  | depth + 1 => (assignedBelow opHead checksum depth).bind fun expected =>
      (chainEntry canonical headerAt (opHead - depth) expected).map PrepareHeader.parent

def assigned (opHead op : Nat) : Option Nat :=
  (headOfView canonical opHead).bind fun head =>
    assignedBelow canonical headerAt opHead head.checksum (opHead - op)

end Chain

variable {canonical : List PrepareHeader} {headerAt headerAt' : Nat → Option PrepareHeader}
  {opHead proven above expected op : Nat}

theorem assigned_pred {entry : PrepareHeader} (hop : op + 1 ≤ opHead)
    (h : assigned canonical headerAt opHead (op + 1) = some expected)
    (hentry : chainEntry canonical headerAt (op + 1) expected = some entry) :
    assigned canonical headerAt opHead op = some entry.parent := by
  unfold assigned at h ⊢
  obtain ⟨head, hhead, hbelow⟩ := bind_eq_some_iff.mp h
  rw [hhead, bind_some, show opHead - op = (opHead - (op + 1)) + 1 by omega, assignedBelow,
    hbelow, bind_some, show opHead - (opHead - (op + 1)) = op + 1 by omega, hentry,
    map_some]

theorem assigned_congr (h : ∀ k, op < k → k ≤ opHead → headerAt' k = headerAt k) :
    assigned canonical headerAt' opHead op = assigned canonical headerAt opHead op := by
  unfold assigned
  congr 1
  funext head
  have hdepth : ∀ depth, depth ≤ opHead - op →
      assignedBelow canonical headerAt' opHead head.checksum depth =
        assignedBelow canonical headerAt opHead head.checksum depth := by
    intro depth
    induction depth with
    | zero => exact fun _ => rfl
    | succ depth ih =>
      intro hle
      unfold assignedBelow chainEntry
      rw [ih (by omega), h (opHead - depth) (by omega) (by omega)]
  exact hdepth _ le_rfl

theorem not_onChain {header : PrepareHeader} :
    ¬ OnChain header expected ↔
      header.checksum = checksumUnsealed ∨ header.checksum ≠ expected := by
  unfold OnChain
  tauto

variable {held : PrepareHeader}

theorem chainEntry_of_held (h : headerAt op = some held) (hon : OnChain held expected) :
    chainEntry canonical headerAt op expected = some held := by
  simp [chainEntry, h, Option.filter, hon]

theorem chainEntry_of_not_held (h : headerAt op = none) :
    chainEntry canonical headerAt op expected = named canonical op expected := by
  simp [chainEntry, h]

theorem chainEntry_of_divergent (h : headerAt op = some held) (hoff : ¬ OnChain held expected) :
    chainEntry canonical headerAt op expected = named canonical op expected := by
  simp [chainEntry, h, Option.filter, hoff]

theorem onChain_of_named {header : PrepareHeader}
    (h : named canonical op expected = some header) : OnChain header expected := by
  simpa using filter_eq_some_iff.mp h |>.2

/-! ## The walks -/

variable {missing : Option Nat}

theorem walk_held (h : headerAt (proven + above + 1) = some held) :
    walk canonical headerAt proven (above + 1) expected missing =
      if OnChain held expected then walk canonical headerAt proven above held.parent missing
      else .divergent (divergentRunFirst canonical headerAt proven above expected)
        (proven + above + 1) := by
  simp only [walk, h]
  by_cases hon : OnChain held expected
  · rw [if_pos hon, if_neg (fun h => not_onChain.mpr h hon)]
  · rw [if_neg hon, if_pos (not_onChain.mp hon)]

theorem walk_not_held (h : headerAt (proven + above + 1) = none) :
    walk canonical headerAt proven (above + 1) expected missing =
      match named canonical (proven + above + 1) expected with
      | none => .missing (proven + above + 1) (proven + above + 1)
      | some header =>
        walk canonical headerAt proven above header.parent (some (proven + above + 1)) := by
  simp only [walk, h]
  cases hnamed : named canonical (proven + above + 1) expected with
  | none => rfl
  | some header =>
    have hon := onChain_of_named hnamed
    simp only [map_some]
    rw [if_neg (fun h => not_onChain.mpr h hon)]

def Contradicted (canonical : List PrepareHeader) (headerAt : Nat → Option PrepareHeader)
    (opHead op : Nat) : Prop :=
  ∃ held expected, headerAt op = some held ∧ assigned canonical headerAt opHead op = some expected ∧
    (held.checksum = checksumUnsealed ∨ held.checksum ≠ expected)

def Agrees (canonical : List PrepareHeader) (headerAt : Nat → Option PrepareHeader)
    (opHead op : Nat) : Prop :=
  ∀ held, headerAt op = some held → held.checksum ≠ checksumUnsealed ∧
    assigned canonical headerAt opHead op = some held.checksum

theorem divergentRunFirst_spec (hle : proven + above + 1 ≤ opHead)
    (hassigned : assigned canonical headerAt opHead (proven + above + 1) = some expected)
    (hheld : headerAt (proven + above + 1) = some held) (hoff : ¬ OnChain held expected) :
    proven < divergentRunFirst canonical headerAt proven above expected ∧
      divergentRunFirst canonical headerAt proven above expected ≤ proven + above + 1 ∧
      ∀ op, divergentRunFirst canonical headerAt proven above expected ≤ op →
        op ≤ proven + above + 1 → Contradicted canonical headerAt opHead op := by
  have hlast : Contradicted canonical headerAt opHead (proven + above + 1) :=
    ⟨held, expected, hheld, hassigned, not_onChain.mp hoff⟩
  induction above generalizing expected held with
  | zero =>
    refine ⟨Nat.lt_succ_self _, le_rfl, fun op hge hop => ?_⟩
    simp only [divergentRunFirst] at hge
    rwa [show op = proven + 0 + 1 by omega]
  | succ above ih =>
    -- the run ends at its last entry unless the chain goes on and contradicts the entry below
    have hends : ∀ first, first = proven + above + 2 → proven < first ∧
        first ≤ proven + (above + 1) + 1 ∧ ∀ op, first ≤ op → op ≤ proven + (above + 1) + 1 →
          Contradicted canonical headerAt opHead op := by
      rintro first rfl
      refine ⟨by omega, by omega, fun op hge hop => ?_⟩
      rwa [show op = proven + (above + 1) + 1 by omega]
    simp only [divergentRunFirst]
    cases hnamed : named canonical (proven + above + 2) expected with
    | none => exact hends _ rfl
    | some header =>
      have hbelow : assigned canonical headerAt opHead (proven + above + 1) = some header.parent :=
        assigned_pred hle hassigned ((chainEntry_of_divergent hheld hoff).trans hnamed)
      cases hheld' : headerAt (proven + above + 1) with
      | none => exact hends _ rfl
      | some held' =>
        by_cases hon : OnChain held' header.parent
        · simp only [hon, if_true]
          exact hends _ rfl
        · simp only [hon, if_false]
          obtain ⟨hpos, hfirst, hrun⟩ := ih (by omega) hbelow hheld' hon
            ⟨held', header.parent, hheld', hbelow, not_onChain.mp hon⟩
          refine ⟨hpos, by omega, fun op hge hop => ?_⟩
          obtain rfl | hlt := Nat.eq_or_lt_of_le hop
          · exact hlast
          · exact hrun op hge (by omega)

structure FoundFrom (canonical : List PrepareHeader) (headerAt : Nat → Option PrepareHeader)
    (opHead proven top first last : Nat) : Prop where
  above : proven < first
  ordered : first ≤ last
  below : last ≤ top
  contradicted : ∀ op, first ≤ op → op ≤ last → Contradicted canonical headerAt opHead op
  agrees : ∀ op, last < op → op ≤ top → Agrees canonical headerAt opHead op

variable {first last : Nat}

theorem FoundFrom.step {top : Nat} (h : FoundFrom canonical headerAt opHead proven top first last)
    (hagrees : Agrees canonical headerAt opHead (top + 1)) :
    FoundFrom canonical headerAt opHead proven (top + 1) first last := by
  refine { h with below := Nat.le_succ_of_le h.below, agrees := fun op hlt hop => ?_ }
  obtain rfl | hop := Nat.eq_or_lt_of_le hop
  · exact hagrees
  · exact h.agrees op hlt (Nat.le_of_lt_succ hop)

theorem walk_eq_divergent (hle : proven + above ≤ opHead)
    (hassigned : assigned canonical headerAt opHead (proven + above) = some expected)
    (h : walk canonical headerAt proven above expected missing = .divergent first last) :
    FoundFrom canonical headerAt opHead proven (proven + above) first last := by
  induction above generalizing expected missing with
  | zero => cases missing <;> nomatch h
  | succ above ih =>
    cases hheld : headerAt (proven + above + 1) with
    | some held =>
      rw [walk_held hheld] at h
      by_cases hon : OnChain held expected
      · rw [if_pos hon] at h
        refine (ih (by omega) (assigned_pred hle hassigned (chainEntry_of_held hheld hon)) h).step
          fun held' hheld' => ?_
        rw [hheld] at hheld'
        cases hheld'
        exact ⟨hon.1, hon.2 ▸ hassigned⟩
      · rw [if_neg hon] at h
        cases h
        obtain ⟨hpos, hfirst, hrun⟩ := divergentRunFirst_spec hle hassigned hheld hon
        exact ⟨hpos, hfirst, le_rfl, hrun, fun op hlt hop => absurd hlt (by omega)⟩
    | none =>
      rw [walk_not_held hheld] at h
      cases hnamed : named canonical (proven + above + 1) expected with
      | none =>
        rw [hnamed] at h
        nomatch h
      | some header =>
        rw [hnamed] at h
        refine (ih (by omega) (assigned_pred hle hassigned
          ((chainEntry_of_not_held hheld).trans hnamed)) h).step fun held hheld' => ?_
        rw [hheld] at hheld'
        nomatch hheld'

theorem walk_ne_proven_of_missing {op : Nat} :
    walk canonical headerAt proven above expected (some op) ≠ .proven := by
  induction above generalizing expected op with
  | zero => nofun
  | succ above ih =>
    cases hheld : headerAt (proven + above + 1) with
    | some held =>
      rw [walk_held hheld]
      split
      · exact ih
      · nofun
    | none =>
      rw [walk_not_held hheld]
      split
      · nofun
      · exact ih

theorem walk_eq_proven (h : walk canonical headerAt proven above expected none = .proven) :
    (∀ held, headerAt (proven + above) = some held → above ≠ 0 → held.checksum = expected) ∧
      ∀ op, proven < op → op ≤ proven + above → ∃ held, headerAt op = some held ∧
        held.checksum ≠ checksumUnsealed ∧
        ∀ child, headerAt (op + 1) = some child → op < proven + above →
          held.checksum = child.parent := by
  induction above generalizing expected with
  | zero => exact ⟨fun _ _ h => absurd rfl h, fun op hlt hle => absurd hlt (by omega)⟩
  | succ above ih =>
    cases hheld : headerAt (proven + above + 1) with
    | none =>
      rw [walk_not_held hheld] at h
      split at h
      · nomatch h
      · exact absurd h walk_ne_proven_of_missing
    | some held =>
      rw [walk_held hheld] at h
      split_ifs at h with hon
      obtain ⟨hhead, hrest⟩ := ih h
      refine ⟨fun held' hheld' _ => ?_, fun op hlt hle => ?_⟩
      · cases hheld'
        exact hon.2
      · obtain rfl | hop := Nat.eq_or_lt_of_le hle
        · exact ⟨held, hheld, hon.1, fun _ _ h => absurd h (lt_irrefl _)⟩
        · obtain ⟨entry, hentry, hsealed, hchain⟩ := hrest op hlt (by omega)
          refine ⟨entry, hentry, hsealed, fun child hchild _ => ?_⟩
          obtain rfl | hop := Nat.eq_or_lt_of_le (show op ≤ proven + above by omega)
          · rw [hheld] at hchild
            cases hchild
            exact hhead entry hentry (by omega)
          · exact hchain child hchild hop

theorem le_provenFrom {left op proven : Nat} {parent : Option Nat} :
    proven ≤ provenFrom headerAt left op parent proven := by
  induction left generalizing op parent proven with
  | zero => exact le_rfl
  | succ left ih =>
    simp only [provenFrom]
    split
    · exact le_rfl
    · split
      · exact le_rfl
      · exact (le_max_left ..).trans ih

theorem le_locallyProvenCommit (headerAt : Nat → Option PrepareHeader) (commitFloor : Nat) :
    commitFloor ≤ locallyProvenCommit headerAt commitFloor := le_provenFrom

end ViewLog

/-! ## The answers -/

section Answers

variable {commitFloor opHead : Nat} {canonical : List PrepareHeader}
  {headerAt headerAt' : Nat → Option PrepareHeader}

def HeldOnChain (canonical : List PrepareHeader) (headerAt : Nat → Option PrepareHeader)
    (proven opHead : Nat) : Prop :=
  (∃ head held, headOfView canonical opHead = some head ∧ headerAt opHead = some held ∧
    held.checksum = head.checksum) ∧
  ∀ op, proven < op → op ≤ opHead → ∃ held, headerAt op = some held ∧
    held.checksum ≠ checksumUnsealed ∧
    ∀ child, headerAt (op + 1) = some child → op < opHead → held.checksum = child.parent

theorem viewLogProof_eq_proven (h : viewLogProof commitFloor canonical opHead headerAt = .proven) :
    opHead ≤ locallyProvenCommit headerAt commitFloor ∨
      HeldOnChain canonical headerAt (locallyProvenCommit headerAt commitFloor) opHead := by
  simp only [viewLogProof] at h
  split at h
  case isTrue hle => exact .inl hle
  case isFalse hlt =>
    split at h
    · nomatch h
    rename_i head hhead
    have hsum : locallyProvenCommit headerAt commitFloor +
        (opHead - locallyProvenCommit headerAt commitFloor) = opHead := by omega
    obtain ⟨htop, hall⟩ := walk_eq_proven h
    rw [hsum] at htop hall
    obtain ⟨held, hheld, -⟩ := hall opHead (by omega) (le_rfl)
    exact .inr ⟨⟨head, held, hhead, hheld, htop held hheld (by omega)⟩, hall⟩

structure DivergentRun (canonical : List PrepareHeader) (headerAt : Nat → Option PrepareHeader)
    (proven opHead first last : Nat) : Prop where
  above : proven < first
  ordered : first ≤ last
  below : last ≤ opHead
  contradicted : ∀ op, first ≤ op → op ≤ last → Contradicted canonical headerAt opHead op
  agrees : ∀ op, last < op → op ≤ opHead → Agrees canonical headerAt opHead op

variable {first last : Nat}

theorem viewLogProof_eq_divergent
    (h : viewLogProof commitFloor canonical opHead headerAt = .divergent first last) :
    DivergentRun canonical headerAt (locallyProvenCommit headerAt commitFloor) opHead first
      last := by
  simp only [viewLogProof] at h
  split_ifs at h with hlt
  split at h
  · nomatch h
  rename_i head hhead
  have hsum : locallyProvenCommit headerAt commitFloor +
      (opHead - locallyProvenCommit headerAt commitFloor) = opHead := by omega
  have hassigned : assigned canonical headerAt opHead opHead = some head.checksum := by
    simp [assigned, hhead, assignedBelow]
  obtain ⟨habove, hordered, hbelow, hrun, hrest⟩ :=
    walk_eq_divergent (hsum.le) (hsum.symm ▸ hassigned) h
  rw [hsum] at hbelow hrest
  exact ⟨habove, hordered, hbelow, hrun, hrest⟩

/-! ## Alternating proof and removal -/

def removeRun (headerAt : Nat → Option PrepareHeader) (first last op : Nat) :
    Option PrepareHeader :=
  if first ≤ op ∧ op ≤ last then none else headerAt op

def repairedLog (commitFloor : Nat) (canonical : List PrepareHeader) (opHead : Nat)
    (headerAt : Nat → Option PrepareHeader) : Nat → Nat → Option PrepareHeader
  | 0 => headerAt
  | rounds + 1 =>
    let log := repairedLog commitFloor canonical opHead headerAt rounds
    match viewLogProof commitFloor canonical opHead log with
    | .divergent first last => removeRun log first last
    | _ => log

structure Removed (headerAt headerAt' : Nat → Option PrepareHeader) (first last : Nat) : Prop where
  gone : ∀ op, first ≤ op → op ≤ last → headerAt' op = none
  kept : ∀ op, last < op → headerAt' op = headerAt op

/-- What is held above the run is on the chain. -/
theorem DivergentRun.lt_first {proven proven' first' last' : Nat}
    (h : DivergentRun canonical headerAt proven opHead first last)
    (hremoved : Removed headerAt headerAt' first last)
    (h' : DivergentRun canonical headerAt' proven' opHead first' last') : last' < first := by
  obtain ⟨held, expected, hheld, hassigned, hoff⟩ := h'.contradicted last' h'.ordered (le_rfl)
  by_contra hge
  obtain hle | hlt := Nat.lt_or_ge last last' |>.symm
  · rw [hremoved.gone last' (by omega) hle] at hheld
    nomatch hheld
  · have hsame : assigned canonical headerAt' opHead last' = assigned canonical headerAt opHead last' :=
      assigned_congr fun k hk _ => hremoved.kept k (by omega)
    rw [hremoved.kept last' hlt] at hheld
    obtain ⟨hsealed, hagrees⟩ := h.agrees last' hlt h'.below held hheld
    rw [hsame, hagrees] at hassigned
    cases hassigned
    exact hoff.elim hsealed fun h => h rfl

variable {i : Nat}

theorem removed_repairedLog (h : viewLogProof commitFloor canonical opHead
      (repairedLog commitFloor canonical opHead headerAt i) = .divergent first last) (j : Nat) :
    Removed (repairedLog commitFloor canonical opHead headerAt i)
      (repairedLog commitFloor canonical opHead headerAt (i + 1 + j)) first last := by
  induction j with
  | zero =>
    simp only [repairedLog, h]
    refine ⟨fun op hfirst hlast => ?_, fun op hlast => ?_⟩
    · rw [removeRun, if_pos ⟨hfirst, hlast⟩]
    · rw [removeRun, if_neg (by omega)]
  | succ j ih =>
    rw [show i + 1 + (j + 1) = i + 1 + j + 1 by omega, repairedLog]
    split
    case h_1 first' last' h' =>
      have hlt := (viewLogProof_eq_divergent h).lt_first ih (viewLogProof_eq_divergent h')
      refine ⟨fun op hfirst hlast => ?_, fun op hlast => ?_⟩
      · rw [removeRun, if_neg (by omega)]
        exact ih.gone op hfirst hlast
      · have hordered := (viewLogProof_eq_divergent h).ordered
        rw [removeRun, if_neg (by omega)]
        exact ih.kept op hlast
    case h_2 => exact ih

theorem repairedLog_removeRun
    (h : viewLogProof commitFloor canonical opHead headerAt = .divergent first last)
    (rounds : Nat) :
    repairedLog commitFloor canonical opHead (removeRun headerAt first last) rounds =
      repairedLog commitFloor canonical opHead headerAt (rounds + 1) := by
  induction rounds with
  | zero => simp only [repairedLog, h]
  | succ rounds ih => rw [repairedLog, ih]; rfl

theorem divergent_descending {j first' last' : Nat} (hij : i < j)
    (h : viewLogProof commitFloor canonical opHead
      (repairedLog commitFloor canonical opHead headerAt i) = .divergent first last)
    (h' : viewLogProof commitFloor canonical opHead
      (repairedLog commitFloor canonical opHead headerAt j) = .divergent first' last') :
    last' < first := by
  obtain ⟨d, rfl⟩ := Nat.exists_eq_add_of_le (show i + 1 ≤ j by omega)
  exact (viewLogProof_eq_divergent h).lt_first (removed_repairedLog h d) (viewLogProof_eq_divergent h')

theorem last_add_rounds_le (hall : ∀ i, i ≤ opHead - commitFloor → ∃ first last,
      viewLogProof commitFloor canonical opHead
        (repairedLog commitFloor canonical opHead headerAt i) = .divergent first last)
    (hi : i ≤ opHead - commitFloor) (h : viewLogProof commitFloor canonical opHead
      (repairedLog commitFloor canonical opHead headerAt i) = .divergent first last) :
    last + i ≤ opHead := by
  induction i generalizing first last with
  | zero => exact (viewLogProof_eq_divergent h).below
  | succ i ih =>
    obtain ⟨first', last', h'⟩ := hall i (by omega)
    have hprev := ih (by omega) h'
    have hlt := divergent_descending (Nat.lt_succ_self i) h' h
    have hordered := (viewLogProof_eq_divergent h').ordered
    omega

theorem exists_not_divergent : ∃ rounds ≤ opHead - commitFloor, ∀ first last,
    viewLogProof commitFloor canonical opHead
      (repairedLog commitFloor canonical opHead headerAt rounds) ≠ .divergent first last := by
  by_contra hnone
  push Not at hnone
  obtain ⟨first, last, h⟩ := hnone (opHead - commitFloor) (le_rfl)
  have hsum := last_add_rounds_le hnone (le_rfl) h
  have hrun := viewLogProof_eq_divergent h
  have hfloor := le_locallyProvenCommit
    (repairedLog commitFloor canonical opHead headerAt (opHead - commitFloor)) commitFloor
  have := hrun.above
  have := hrun.ordered
  have := hrun.below
  omega

/-- **The view-log proof is sound and its repair loop ends.** -/
theorem viewLogProof_sound (commitFloor : Nat) (canonical : List PrepareHeader) (opHead : Nat)
    (headerAt : Nat → Option PrepareHeader) :
    (viewLogProof commitFloor canonical opHead headerAt = .proven →
      opHead ≤ locallyProvenCommit headerAt commitFloor ∨
        HeldOnChain canonical headerAt (locallyProvenCommit headerAt commitFloor) opHead) ∧
    (∀ first last, viewLogProof commitFloor canonical opHead headerAt = .divergent first last →
      DivergentRun canonical headerAt (locallyProvenCommit headerAt commitFloor) opHead first last ∧
      ∀ rounds first' last', viewLogProof commitFloor canonical opHead
          (repairedLog commitFloor canonical opHead (removeRun headerAt first last) rounds) =
            .divergent first' last' → last' < first) ∧
    ∃ rounds ≤ opHead - commitFloor, ∀ first last,
      viewLogProof commitFloor canonical opHead
        (repairedLog commitFloor canonical opHead headerAt rounds) ≠ .divergent first last := by
  refine ⟨viewLogProof_eq_proven, fun first last h => ⟨viewLogProof_eq_divergent h, ?_⟩,
    exists_not_divergent⟩
  intro rounds first' last' h'
  rw [repairedLog_removeRun h] at h'
  exact divergent_descending (Nat.succ_pos rounds) h h'

end Answers

end Iggy
