import Iggy.Metadata.ChangeLog
import Iggy.Metadata.ConsumerGroup

/-!
# Consumer-group owners on a partition

Source: retire_consumer_group_owners.rs:41-48; iggy_partition.rs:1089-1400.

A partition keeps the owner installed for each consumer group that reads it, the catalog of the
groups still alive, and the fence that closes it. Installations, catalogs and the fence are
committed operations of the partition's log and may arrive late, again or out of order. An
application that fails returns the state it leaves, as the code changes the partition in place. The
poll leases and the last polled offsets that an application also resets are read by no function
here.
-/

namespace Iggy

open Lib SortedMap Option

/-- The catalog of live groups. Its decoder lets the ids through only in ascending order, so the
binary search of `retires` finds what is there. -/
structure RetireConsumerGroupOwnersRequest where
  incarnation : Nat
  metadataOp : Nat
  nextGroupId : Nat
  liveGroupIds : List Nat
  ordered : liveGroupIds.Pairwise (· < ·)

namespace RetireConsumerGroupOwnersRequest

/-- Ids below the allocation boundary that are not alive are deleted for good. -/
def retires (c : RetireConsumerGroupOwnersRequest) (groupId : Nat) : Bool :=
  groupId < c.nextGroupId && !c.liveGroupIds.contains groupId

/-- The ids that an installed catalog has not retired. -/
def retainLive (c installed : RetireConsumerGroupOwnersRequest) : RetireConsumerGroupOwnersRequest :=
  { c with
    liveGroupIds := c.liveGroupIds.filter fun groupId => !installed.retires groupId
    ordered := c.ordered.filter _ }

end RetireConsumerGroupOwnersRequest

structure InstalledConsumerGroupOwner where
  installation : InstallConsumerGroupOwnerRequest
  partitionOp : Nat
  deriving DecidableEq

structure InstalledPartitionHistory where
  transition : TransitionPartitionHistoryRequest
  partitionOp : Nat
  deriving DecidableEq

inductive ConsumerKind
  | consumer | consumerGroup
  deriving DecidableEq

inductive OwnerFenceError
  | historyUnavailable | invalidCommand
  deriving DecidableEq

/-- The part of a partition that fences its consumer groups. -/
structure PartitionFence where
  createdRevision : Nat
  consumerGroupOwners : SortedMap Nat InstalledConsumerGroupOwner
  ownerRetirement : Option RetireConsumerGroupOwnersRequest
  historyTransition : Option InstalledPartitionHistory
  requiredMetadataFrontier : Nat

def consumerOffsetsEntriesMax : Nat := 2 ^ 20

namespace PartitionFence

def new (createdRevision : Nat) : PartitionFence :=
  ⟨createdRevision, .empty, none, none, 0⟩

variable (s : PartitionFence)

def consumerGroupOwner (groupId : Nat) : Option ConsumerGroupOwner :=
  ((s.consumerGroupOwners.get? groupId).filter fun installed =>
    installed.installation.incarnation = s.createdRevision).map fun installed =>
      installed.installation.owner

def consumerGroupRetired (groupId : Nat) : Bool :=
  s.ownerRetirement.any fun catalog => catalog.retires groupId

def matchesConsumerOwner (kind : ConsumerKind) (consumerId clientId session ownerGeneration : Nat)
    (operation : Operation) : Bool :=
  if kind ≠ .consumerGroup then ownerGeneration == 0
  else match s.consumerGroupOwner consumerId with
    | none =>
      operation == .deleteConsumerOffset && isAutoCommitClient clientId &&
        s.consumerGroupRetired consumerId
    | some owner =>
      owner.generation == ownerGeneration &&
        (!owner.isUnassigned ||
          (operation == .deleteConsumerOffset && isAutoCommitClient clientId)) &&
        (isAutoCommitClient clientId || (owner.clientId == clientId && owner.session == session))

def applyHistoryTransition (transition : TransitionPartitionHistoryRequest) (partitionOp : Nat) :
    PartitionFence × Except OwnerFenceError Unit :=
  if transition.incarnation ≠ s.createdRevision then (s, .error .historyUnavailable)
  else match s.historyTransition with
    | some installed =>
      if installed.transition = transition then (s, .ok ()) else (s, .error .historyUnavailable)
    | none =>
      ({ s with
          historyTransition := some ⟨transition, partitionOp⟩
          requiredMetadataFrontier := max s.requiredMetadataFrontier transition.metadataOp },
        .ok ())

variable (installation : InstallConsumerGroupOwnerRequest)

def conflictsWithInstalledOwner : Bool :=
  (s.consumerGroupOwners.get? installation.groupId).any fun installed =>
    if installation.owner.generation = installed.installation.owner.generation then
      installation ≠ installed.installation
    else
      installed.installation.owner.generation < installation.owner.generation &&
        installation.metadataOp ≤ installed.installation.metadataOp

/-- The end of `apply_consumer_group_owner`. -/
def installOwner (partitionOp : Nat) : PartitionFence × Except OwnerFenceError Unit :=
  if 2 ^ 32 ≤ installation.groupId then (s, .error .invalidCommand)
  else
    ({ s with
        requiredMetadataFrontier := max s.requiredMetadataFrontier installation.metadataOp
        consumerGroupOwners := s.consumerGroupOwners.upsert installation.groupId fun _ =>
          ⟨installation, partitionOp⟩ },
      .ok ())

def applyConsumerGroupOwner (partitionOp : Nat) : PartitionFence × Except OwnerFenceError Unit :=
  if installation.incarnation ≠ s.createdRevision then (s, .ok ())
  else if s.consumerGroupRetired installation.groupId then (s, .ok ())
  else if s.historyTransition.isSome then (s, .error .historyUnavailable)
  else match s.consumerGroupOwners.get? installation.groupId with
    | some installed =>
      if s.conflictsWithInstalledOwner installation then (s, .error .invalidCommand)
      else if installation.owner.generation ≤ installed.installation.owner.generation then
        (s, .ok ())
      else s.installOwner installation partitionOp
    | none =>
      if consumerOffsetsEntriesMax ≤ s.consumerGroupOwners.entries.length then
        (s, .error .invalidCommand)
      else s.installOwner installation partitionOp

variable (catalog : RetireConsumerGroupOwnersRequest)

/-- The end of `apply_consumer_group_owner_retirement`, with the merged catalog. -/
def retireOwners : PartitionFence × Except OwnerFenceError Unit :=
  if s.consumerGroupOwners.entries.any fun (groupId, installed) =>
      catalog.retires groupId && !installed.installation.owner.isUnassigned then
    (s, .error .invalidCommand)
  else
    ({ s with
        consumerGroupOwners := s.consumerGroupOwners.retain fun groupId => !catalog.retires groupId
        requiredMetadataFrontier := max s.requiredMetadataFrontier catalog.metadataOp
        ownerRetirement := some catalog },
      .ok ())

/-- `apply_consumer_group_owner_retirement`: a catalog can keep a group that an earlier one
retired. -/
def applyConsumerGroupOwnerRetirement : PartitionFence × Except OwnerFenceError Unit :=
  if catalog.incarnation ≠ s.createdRevision then (s, .ok ())
  else match s.ownerRetirement with
    | some installed =>
      if catalog.metadataOp < installed.metadataOp then (s, .ok ())
      else if catalog.nextGroupId < installed.nextGroupId ∨
          (catalog.metadataOp = installed.metadataOp ∧
            catalog.nextGroupId ≠ installed.nextGroupId) then
        (s, .error .invalidCommand)
      else s.retireOwners (catalog.retainLive installed)
    | none => s.retireOwners catalog

end PartitionFence

inductive OwnerFenceEvent
  | install (installation : InstallConsumerGroupOwnerRequest) (partitionOp : Nat)
  | retire (catalog : RetireConsumerGroupOwnersRequest)
  | transition (transition : TransitionPartitionHistoryRequest) (partitionOp : Nat)

namespace PartitionFence

def apply (s : PartitionFence) : OwnerFenceEvent → PartitionFence × Except OwnerFenceError Unit
  | .install installation partitionOp => s.applyConsumerGroupOwner installation partitionOp
  | .retire catalog => s.applyConsumerGroupOwnerRetirement catalog
  | .transition transition partitionOp => s.applyHistoryTransition transition partitionOp

/-- A run of applications; one that is refused leaves what it leaves. -/
def run (s : PartitionFence) (events : List OwnerFenceEvent) : PartitionFence :=
  events.foldl (fun s e => (s.apply e).1) s

/-! ## What one application can do -/

inductive Change (s : PartitionFence) : OwnerFenceEvent → PartitionFence → Prop
  | install {installation : InstallConsumerGroupOwnerRequest} {partitionOp : Nat}
      (hincarnation : installation.incarnation = s.createdRevision)
      (hlive : s.consumerGroupRetired installation.groupId = false)
      (hopen : s.historyTransition = none) (hgroup : installation.groupId < 2 ^ 32)
      (hroom : s.consumerGroupOwners.get? installation.groupId = none →
        s.consumerGroupOwners.entries.length < consumerOffsetsEntriesMax)
      (hnewer : ∀ installed, s.consumerGroupOwners.get? installation.groupId = some installed →
        installed.installation.owner.generation < installation.owner.generation ∧
          installed.installation.metadataOp < installation.metadataOp) :
      Change s (.install installation partitionOp) { s with
        requiredMetadataFrontier := max s.requiredMetadataFrontier installation.metadataOp
        consumerGroupOwners := s.consumerGroupOwners.upsert installation.groupId fun _ =>
          ⟨installation, partitionOp⟩ }
  | retire {catalog merged : RetireConsumerGroupOwnersRequest}
      (hincarnation : catalog.incarnation = s.createdRevision)
      (hmerged : merged = catalog ∨ ∃ installed, merged = catalog.retainLive installed)
      (hkeeps : ∀ groupId, s.consumerGroupRetired groupId = true → merged.retires groupId = true) :
      Change s (.retire catalog) { s with
        consumerGroupOwners := s.consumerGroupOwners.retain fun groupId => !merged.retires groupId
        requiredMetadataFrontier := max s.requiredMetadataFrontier merged.metadataOp
        ownerRetirement := some merged }
  | transition {transition : TransitionPartitionHistoryRequest} {partitionOp : Nat}
      (hincarnation : transition.incarnation = s.createdRevision)
      (hopen : s.historyTransition = none) :
      Change s (.transition transition partitionOp) { s with
        historyTransition := some ⟨transition, partitionOp⟩
        requiredMetadataFrontier := max s.requiredMetadataFrontier transition.metadataOp }

variable {s : PartitionFence} {catalog : RetireConsumerGroupOwnersRequest} {groupId : Nat}

theorem retires_retainLive {installed : RetireConsumerGroupOwnersRequest}
    (hnext : installed.nextGroupId ≤ catalog.nextGroupId) (h : installed.retires groupId = true) :
    (catalog.retainLive installed).retires groupId = true := by
  have hlt : groupId < installed.nextGroupId := by
    simp only [RetireConsumerGroupOwnersRequest.retires, Bool.and_eq_true, decide_eq_true_eq] at h
    exact h.1
  have hmerged : (catalog.retainLive installed).liveGroupIds.contains groupId = false := by
    simp [RetireConsumerGroupOwnersRequest.retainLive, h]
  rw [RetireConsumerGroupOwnersRequest.retires, hmerged, Bool.not_false, Bool.and_true]
  exact decide_eq_true (hlt.trans_le hnext)

/-- The state is unchanged, or the application was accepted and changed it in one of three ways. -/
def Applied (s : PartitionFence) (e : OwnerFenceEvent)
    (result : PartitionFence × Except OwnerFenceError Unit) : Prop :=
  result.1 = s ∨ result.2 = .ok () ∧ Change s e result.1

theorem applied_install (installation : InstallConsumerGroupOwnerRequest) (partitionOp : Nat) :
    Applied s (.install installation partitionOp)
      (s.applyConsumerGroupOwner installation partitionOp) := by
  unfold applyConsumerGroupOwner installOwner
  split
  case isTrue => exact .inl rfl
  case isFalse hincarnation =>
    split
    case isTrue => exact .inl rfl
    case isFalse hlive =>
      have hincarnation := not_not.mp hincarnation
      have hlive := Bool.eq_false_iff.mpr hlive
      split
      case isTrue => exact .inl rfl
      case isFalse hopen =>
      have hopen := not_isSome_iff_eq_none.mp hopen
      split
      case h_1 installed hrow =>
        split
        case isTrue => exact .inl rfl
        case isFalse hconflict =>
          split
          case isTrue => exact .inl rfl
          split
          case isTrue => exact .inl rfl
          case isFalse hgeneration hgroup =>
            refine .inr ⟨rfl, .install hincarnation hlive hopen (not_le.mp hgroup)
              (fun hnone => nomatch hrow.symm.trans hnone) fun row hget => ?_⟩
            obtain rfl : installed = row := some.inj (hrow.symm.trans hget)
            rw [not_le] at hgeneration
            refine ⟨hgeneration, ?_⟩
            -- a higher generation that was decided no later would have been a conflict
            simp only [conflictsWithInstalledOwner, hrow, any_some,
              if_neg (hgeneration.ne'), hgeneration, decide_true, Bool.true_and,
              decide_eq_true_eq, not_le] at hconflict
            exact hconflict
      case h_2 hrow =>
        split
        case isTrue => exact .inl rfl
        split
        case isTrue => exact .inl rfl
        case isFalse hroom hgroup =>
          refine .inr ⟨rfl, .install hincarnation hlive hopen (not_le.mp hgroup)
            (fun _ => not_le.mp hroom) fun row hget => ?_⟩
          rw [hrow] at hget
          exact nomatch hget

theorem applied_retire (catalog : RetireConsumerGroupOwnersRequest) :
    Applied s (.retire catalog) (s.applyConsumerGroupOwnerRetirement catalog) := by
  unfold applyConsumerGroupOwnerRetirement retireOwners
  split
  case isTrue => exact .inl rfl
  case isFalse hincarnation =>
    have hincarnation := not_not.mp hincarnation
    split
    case h_1 installed hinstalled =>
      split
      case isTrue => exact .inl rfl
      split
      case isTrue => exact .inl rfl
      split
      case isTrue => exact .inl rfl
      case isFalse hnext _ =>
        refine .inr ⟨rfl, .retire hincarnation (.inr ⟨installed, rfl⟩) fun groupId hretired => ?_⟩
        simp only [consumerGroupRetired, hinstalled, any_some] at hretired
        exact retires_retainLive (by omega) hretired
    case h_2 hinstalled =>
      split
      case isTrue => exact .inl rfl
      refine .inr ⟨rfl, .retire hincarnation (.inl rfl) fun groupId hretired => ?_⟩
      simp [consumerGroupRetired, hinstalled] at hretired

theorem applied_transition (transition : TransitionPartitionHistoryRequest) (partitionOp : Nat) :
    Applied s (.transition transition partitionOp)
      (s.applyHistoryTransition transition partitionOp) := by
  unfold applyHistoryTransition
  split
  case isTrue => exact .inl rfl
  case isFalse hincarnation =>
    split
    case h_1 =>
      split
      · exact .inl rfl
      · exact .inl rfl
    case h_2 hopen => exact .inr ⟨rfl, .transition (not_not.mp hincarnation) hopen⟩

/-- **One application.** -/
theorem applied (s : PartitionFence) (e : OwnerFenceEvent) : Applied s e (s.apply e) := by
  cases e with
  | install installation partitionOp => exact applied_install installation partitionOp
  | retire catalog => exact applied_retire catalog
  | transition transition partitionOp => exact applied_transition transition partitionOp

/-! ## What every run keeps -/

/-- Rows are of this incarnation and of groups that are not retired, and the frontier is not below
any stored metadata op. -/
structure WellFormed (s : PartitionFence) : Prop where
  incarnation : ∀ groupId row, s.consumerGroupOwners.get? groupId = some row →
    row.installation.incarnation = s.createdRevision
  unretired : ∀ groupId, s.consumerGroupRetired groupId = true →
    s.consumerGroupOwners.get? groupId = none
  owner_le : ∀ groupId row, s.consumerGroupOwners.get? groupId = some row →
    row.installation.metadataOp ≤ s.requiredMetadataFrontier
  catalog_le : ∀ catalog ∈ s.ownerRetirement, catalog.metadataOp ≤ s.requiredMetadataFrontier
  history_le : ∀ installed ∈ s.historyTransition,
    installed.transition.metadataOp ≤ s.requiredMetadataFrontier

theorem wellFormed_new (createdRevision : Nat) : (new createdRevision).WellFormed where
  incarnation _ _ h := nomatch h
  unretired _ h := nomatch h
  owner_le _ _ h := nomatch h
  catalog_le _ h := nomatch h
  history_le _ h := nomatch h

structure Later (s s' : PartitionFence) : Prop where
  frontier : s.requiredMetadataFrontier ≤ s'.requiredMetadataFrontier
  retired : ∀ groupId, s.consumerGroupRetired groupId = true → s'.consumerGroupRetired groupId = true
  kept : ∀ groupId row, s.consumerGroupOwners.get? groupId = some row →
    s'.consumerGroupOwners.get? groupId = some row ∨ s'.consumerGroupRetired groupId = true ∨
      ∃ row', s'.consumerGroupOwners.get? groupId = some row' ∧
        row.installation.owner.generation < row'.installation.owner.generation ∧
        row.installation.metadataOp < row'.installation.metadataOp

theorem Later.refl (s : PartitionFence) : Later s s :=
  ⟨le_rfl, fun _ h => h, fun _ _ h => .inl h⟩

variable {s' : PartitionFence}

theorem Later.trans {s s'' : PartitionFence} (h : Later s s') (h' : Later s' s'') :
    Later s s'' where
  frontier := h.frontier.trans h'.frontier
  retired groupId hretired := h'.retired groupId (h.retired groupId hretired)
  kept groupId row hrow := by
    obtain hsame | hretired | ⟨row', hrow', hgen, hop⟩ := h.kept groupId row hrow
    · exact h'.kept groupId row hsame
    · exact .inr (.inl (h'.retired groupId hretired))
    · obtain hsame' | hretired | ⟨row'', hrow'', hgen', hop'⟩ := h'.kept groupId row' hrow'
      · exact .inr (.inr ⟨row', hsame', hgen, hop⟩)
      · exact .inr (.inl hretired)
      · exact .inr (.inr ⟨row'', hrow'', hgen.trans hgen', hop.trans hop'⟩)

variable {e : OwnerFenceEvent}

theorem Change.later (h : Change s e s') : Later s s' := by
  cases h with
  | @install installation partitionOp _ _ _ _ _ hnewer =>
    refine ⟨le_max_left _ _, fun _ hretired => hretired, fun groupId row hrow => ?_⟩
    simp only [get?_upsert]
    split
    case isTrue hgroup => exact .inr (.inr ⟨_, rfl, hnewer row (hgroup ▸ hrow)⟩)
    case isFalse => exact .inl hrow
  | @retire _ catalog _ _ hkeeps =>
    refine ⟨le_max_left _ _, hkeeps, fun groupId row hrow => ?_⟩
    cases hretires : catalog.retires groupId with
    | true => exact .inr (.inl hretires)
    | false =>
      refine .inl ?_
      rw [get?_retain, hretires]
      exact hrow
  | transition =>
    exact ⟨le_max_left _ _, fun _ hretired => hretired, fun _ _ hrow => .inl hrow⟩

theorem Change.wellFormed (h : Change s e s') (hs : s.WellFormed) : s'.WellFormed := by
  cases h with
  | @install installation partitionOp hincarnation hlive _ _ _ _ =>
    -- a row after the installation is the one installed or one that was there
    have hrows : ∀ groupId row, (s.consumerGroupOwners.upsert installation.groupId fun _ =>
        (⟨installation, partitionOp⟩ : InstalledConsumerGroupOwner)).get? groupId = some row →
        row.installation = installation ∨ s.consumerGroupOwners.get? groupId = some row := by
      intro groupId row hrow
      rw [get?_upsert] at hrow
      split at hrow
      · exact .inl (some.inj hrow ▸ rfl)
      · exact .inr hrow
    refine ⟨fun groupId row hrow => ?_, fun groupId hretired => ?_, fun groupId row hrow => ?_,
      fun catalog hcatalog => ?_, fun installed hinstalled => ?_⟩
    · obtain hnew | hold := hrows groupId row hrow
      · rw [hnew]
        exact hincarnation
      · exact hs.incarnation groupId row hold
    · have hgroup : groupId ≠ installation.groupId := by
        rintro rfl
        rw [show s.consumerGroupRetired installation.groupId = true from hretired] at hlive
        exact nomatch hlive
      rw [get?_upsert, if_neg hgroup]
      exact hs.unretired groupId hretired
    · obtain hnew | hold := hrows groupId row hrow
      · rw [hnew]
        exact le_max_right _ _
      · exact (hs.owner_le groupId row hold).trans (le_max_left _ _)
    · exact (hs.catalog_le catalog hcatalog).trans (le_max_left _ _)
    · exact (hs.history_le installed hinstalled).trans (le_max_left _ _)
  | @retire _ catalog _ _ hkeeps =>
    have hrows : ∀ groupId row, (s.consumerGroupOwners.retain fun groupId =>
        !catalog.retires groupId).get? groupId = some row →
        s.consumerGroupOwners.get? groupId = some row := by
      intro groupId row hrow
      rw [get?_retain] at hrow
      split_ifs at hrow
      exact hrow
    refine ⟨fun groupId row hrow => hs.incarnation groupId row (hrows groupId row hrow),
      fun groupId hretired => ?_,
      fun groupId row hrow => (hs.owner_le groupId row (hrows groupId row hrow)).trans
        (le_max_left _ _), fun catalog' hcatalog => ?_,
      fun installed hinstalled => (hs.history_le installed hinstalled).trans (le_max_left _ _)⟩
    · have hretires : catalog.retires groupId = true := hretired
      rw [get?_retain, hretires]
      rfl
    · cases hcatalog
      exact le_max_right _ _
  | @transition transition partitionOp =>
    refine ⟨hs.incarnation, hs.unretired,
      fun groupId row hrow => (hs.owner_le groupId row hrow).trans (le_max_left _ _),
      fun catalog hcatalog => (hs.catalog_le catalog hcatalog).trans (le_max_left _ _),
      fun installed hinstalled => ?_⟩
    cases hinstalled
    exact le_max_right _ _

/-- **A step** keeps the invariant and leads to a later state. -/
theorem WellFormed.apply (hs : s.WellFormed) (e : OwnerFenceEvent) :
    (s.apply e).1.WellFormed ∧ Later s (s.apply e).1 := by
  obtain hsame | ⟨-, hchange⟩ := applied s e
  · rw [hsame]
    exact ⟨hs, .refl s⟩
  · exact ⟨hchange.wellFormed hs, hchange.later⟩

theorem WellFormed.run (hs : s.WellFormed) (events : List OwnerFenceEvent) :
    (s.run events).WellFormed ∧ Later s (s.run events) := by
  induction events generalizing s with
  | nil => exact ⟨hs, .refl s⟩
  | cons e events ih =>
    obtain ⟨hstep, hlater⟩ := hs.apply e
    obtain ⟨hrun, hrest⟩ := ih hstep
    exact ⟨hrun, hlater.trans hrest⟩

theorem apply_of_error {error : OwnerFenceError} (h : (s.apply e).2 = .error error) :
    (s.apply e).1 = s := by
  obtain hsame | ⟨hok, -⟩ := applied s e
  · exact hsame
  · rw [hok] at h
    exact nomatch h

/-! ## Owners that are over -/

/-- The generation is over for the group: the group is retired, or a later owner is installed. -/
def Superseded (s : PartitionFence) (groupId generation : Nat) : Prop :=
  s.consumerGroupRetired groupId = true ∨ ∃ row, s.consumerGroupOwners.get? groupId = some row ∧
    generation < row.installation.owner.generation

theorem Superseded.later {generation : Nat} (h : s.Superseded groupId generation)
    (hlater : Later s s') : s'.Superseded groupId generation := by
  obtain hretired | ⟨row, hrow, hlt⟩ := h
  · exact .inl (hlater.retired groupId hretired)
  · obtain hsame | hretired | ⟨row', hrow', hgen, -⟩ := hlater.kept groupId row hrow
    · exact .inr ⟨row, hsame, hlt⟩
    · exact .inl hretired
    · exact .inr ⟨row', hrow', hlt.trans hgen⟩

theorem Later.superseded (h : Later s s') {row : InstalledConsumerGroupOwner}
    (hrow : s.consumerGroupOwners.get? groupId = some row)
    (hgone : s'.consumerGroupOwners.get? groupId ≠ some row) :
    s'.Superseded groupId row.installation.owner.generation := by
  obtain hsame | hretired | ⟨row', hrow', hgen, -⟩ := h.kept groupId row hrow
  · exact absurd hsame hgone
  · exact .inl hretired
  · exact .inr ⟨row', hrow', hgen⟩

/-- A write that names a superseded generation is refused, but for the server's own deletion of the
offset of a retired group. -/
theorem Superseded.refused (hs : s.WellFormed) {generation clientId session : Nat}
    {operation : Operation} (h : s.Superseded groupId generation)
    (hmatch : s.matchesConsumerOwner .consumerGroup groupId clientId session generation operation =
      true) :
    operation = .deleteConsumerOffset ∧ isAutoCommitClient clientId = true ∧
      s.consumerGroupRetired groupId = true := by
  simp only [matchesConsumerOwner, ne_eq, not_true_eq_false, if_false] at hmatch
  obtain hretired | ⟨row, hrow, hlt⟩ := h
  · have hnone : s.consumerGroupOwner groupId = none := by
      simp [consumerGroupOwner, hs.unretired groupId hretired]
    rw [hnone] at hmatch
    simp only [Bool.and_eq_true, beq_iff_eq] at hmatch
    exact ⟨hmatch.1.1, hmatch.1.2, hretired⟩
  · have howner : s.consumerGroupOwner groupId = some row.installation.owner := by
      simp [consumerGroupOwner, hrow, Option.filter, hs.incarnation groupId row hrow]
    rw [howner] at hmatch
    simp only [Bool.and_eq_true, beq_iff_eq] at hmatch
    omega

/-- **Ownership is fenced for good.** Along every run from a well-formed fence: installed
generations and their metadata ops only grow, a retired group stays retired and without an owner,
refused applications change nothing, the frontier never falls and bounds what is stored, and a
generation that was replaced or retired is refused from then on. -/
theorem owner_fence_monotone (hs : s.WellFormed) (before events : List OwnerFenceEvent) :
    let earlier := s.run before
    let later := earlier.run events
    (∀ groupId row row', earlier.consumerGroupOwners.get? groupId = some row →
      later.consumerGroupOwners.get? groupId = some row' →
      row = row' ∨ row.installation.owner.generation < row'.installation.owner.generation ∧
        row.installation.metadataOp < row'.installation.metadataOp) ∧
    (∀ groupId, earlier.consumerGroupRetired groupId = true →
      later.consumerGroupRetired groupId = true ∧
        later.consumerGroupOwners.get? groupId = none) ∧
    (∀ e error, (earlier.apply e).2 = .error error → (earlier.apply e).1 = earlier) ∧
    earlier.requiredMetadataFrontier ≤ later.requiredMetadataFrontier ∧
    ((∀ groupId row, later.consumerGroupOwners.get? groupId = some row →
        row.installation.metadataOp ≤ later.requiredMetadataFrontier) ∧
      (∀ catalog ∈ later.ownerRetirement, catalog.metadataOp ≤ later.requiredMetadataFrontier) ∧
      ∀ installed ∈ later.historyTransition,
        installed.transition.metadataOp ≤ later.requiredMetadataFrontier) ∧
    ∀ groupId row, earlier.consumerGroupOwners.get? groupId = some row →
      later.consumerGroupOwners.get? groupId ≠ some row ∨
        later.consumerGroupRetired groupId = true →
      ∀ rest clientId session operation,
        (later.run rest).matchesConsumerOwner .consumerGroup groupId clientId session
          row.installation.owner.generation operation = true →
        operation = .deleteConsumerOffset ∧ isAutoCommitClient clientId = true ∧
          (later.run rest).consumerGroupRetired groupId = true := by
  intro earlier later
  have hearlier : earlier.WellFormed := (hs.run before).1
  obtain ⟨hwf, hlater⟩ : later.WellFormed ∧ Later earlier later := hearlier.run events
  refine ⟨?_, ?_, fun _ _ h => apply_of_error h, hlater.frontier,
    ⟨hwf.owner_le, hwf.catalog_le, hwf.history_le⟩, ?_⟩
  · intro groupId row row' hrow hrow'
    obtain hsame | hretired | ⟨row'', hrow'', hlt⟩ := hlater.kept groupId row hrow
    · exact .inl (some.inj (hsame.symm.trans hrow'))
    · rw [hwf.unretired groupId hretired] at hrow'
      exact nomatch hrow'
    · obtain rfl : row'' = row' := some.inj (hrow''.symm.trans hrow')
      exact .inr hlt
  · intro groupId hretired
    have hstill := hlater.retired groupId hretired
    exact ⟨hstill, hwf.unretired groupId hstill⟩
  · intro groupId row hrow hover rest clientId session operation hmatch
    have hsuperseded : later.Superseded groupId row.installation.owner.generation :=
      hover.elim (hlater.superseded hrow) .inl
    obtain ⟨hrest, hafter⟩ := hwf.run rest
    exact (hsuperseded.later hafter).refused hrest hmatch

/-- A group's owner is replaced, the group emptied and retired; its first generation is refused. -/
theorem retired_owner_refused :
    ((((new 1).run [.install ⟨1, 3, ⟨5, 6, 7⟩, 7⟩ 1]).run
      [.install ⟨1, 3, ⟨0, 0, 8⟩, 8⟩ 2, .retire ⟨1, 9, 4, [], .nil⟩]).run []).matchesConsumerOwner
        .consumerGroup 3 5 6 7 .storeConsumerOffset = false :=
  Bool.eq_false_iff.mpr fun hmatch =>
    absurd ((owner_fence_monotone (wellFormed_new 1) [.install ⟨1, 3, ⟨5, 6, 7⟩, 7⟩ 1]
      [.install ⟨1, 3, ⟨0, 0, 8⟩, 8⟩ 2, .retire ⟨1, 9, 4, [], .nil⟩]).2.2.2.2.2 3
        ⟨⟨1, 3, ⟨5, 6, 7⟩, 7⟩, 1⟩ (by decide) (.inr (by decide)) [] 5 6 .storeConsumerOffset hmatch).1
      (by decide)

end PartitionFence

end Iggy
