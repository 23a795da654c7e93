import Iggy.Lib.CrashCell
import Iggy.Lib.Except
import Iggy.Partitions.OffsetFrontier
import Mathlib.Data.List.Range

/-!
# A partition with one replica never mints an offset twice

The partition with what outlives it: its superblock record, of which a crash may keep the last
complete write or any later attempted one (`CrashCell`), the messages it stores, of which a crash
keeps the flushed ones and any prefix of the rest, and every offset minted so far.

`OffsetWorld.Sound` says of every record a crash could leave that it is a safe start (`SafeBounds`):
its reservation is above every minted offset and its frontier names no offset that no message
reached. A mint keeps that because it stays under the durable reservation, and no record that could
survive reserves less, as long as the shutdown has not asked for its collapse.
-/

namespace Iggy

open List Lib Option OffsetPartition

structure OffsetWorld where
  partition : OffsetPartition
  record : CrashCell (Option OffsetBounds)
  /-- The offsets of the stored messages, oldest first, and how many of them are flushed. -/
  stored : List Nat
  flushed : Nat
  /-- Every offset minted so far, newest first. -/
  minted : List Nat
  shutdown : Bool
  collapsed : Bool

inductive OffsetEvent
  | admitBatch (count : Nat) (needsPersist backedOff : Bool)
  | append (count : Nat)
  | commit (endOffset : Nat)
  | flush (count : Nat)
  | extend (needsPersist backedOff : Bool)
  | reserve (endOffset : Nat)
  | startWrite (backedOff : Bool)
  | finishWrite (succeeded landed : Bool)
  | beginShutdown
  | collapse (needsPersist backedOff : Bool)
  | restart (kept : Nat) (chainStart checkpointEnd : Option Nat) (left : Option OffsetBounds)

namespace OffsetWorld

open OffsetPartition

def fresh (options : PartitionOptions) : OffsetWorld :=
  { partition := .new options none, record := .fixed none
    stored := [], flushed := 0, minted := [], shutdown := false, collapsed := false }

variable (w : OffsetWorld)

/-- The records a crash may leave: the store's, and that of a write under way. -/
def candidates : List (Option OffsetBounds) :=
  (w.partition.superblockRunning.map fun write => some write.state).toList ++ w.record.contents

/-- A finished write: complete, or failed with its record in place or not. -/
def recordAfter (record : CrashCell (Option OffsetBounds)) (state : OffsetBounds)
    (succeeded landed : Bool) : CrashCell (Option OffsetBounds) :=
  if succeeded then (record.put (some state)).sync
  else if landed then record.put (some state) else record

/-- One event; `none` where the event cannot happen. Shutdown closes admission, and no append
overlaps or follows the collapse of the reservation. -/
def step : OffsetEvent → Option OffsetWorld
  | .admitBatch count needsPersist backedOff =>
    if w.shutdown then none
    else some { w with partition := (w.partition.admitReservedSend count needsPersist backedOff).2 }
  | .append count =>
    if w.collapsed then none
    else match w.partition.stampAndAppendMessages count with
    | none => some w
    | some (base, partition) =>
      some { w with partition
                    stored := w.stored ++ List.range' base count
                    minted := (List.range' base count).reverse ++ w.minted }
  | .commit endOffset =>
    if endOffset ∈ w.stored then some { w with partition := w.partition.publishCommitted endOffset }
    else none
  | .flush count =>
    if w.flushed ≤ count ∧ count ≤ w.stored.length then
      some { w with flushed := count
                    partition := { w.partition with sizedEnd := (w.stored.take count).getLast? } }
    else none
  | .extend needsPersist backedOff =>
    if w.shutdown || !w.partition.needsOffsetReservationExtension then none
    else some { w with partition := (w.partition.extendOffsetReservation needsPersist backedOff).2 }
  | .reserve endOffset =>
    if w.shutdown then none
    else (w.partition.reserveOffsetsThrough endOffset).map fun partition => { w with partition }
  | .startWrite backedOff =>
    (w.partition.startSuperblock backedOff).map fun partition => { w with partition }
  | .finishWrite succeeded landed =>
    match w.partition.superblockRunning, w.partition.finishSuperblock succeeded with
    | some write, some partition =>
      some { w with partition, record := recordAfter w.record write.state succeeded landed }
    | _, _ => none
  | .beginShutdown => some { w with shutdown := true }
  | .collapse needsPersist backedOff =>
    if !w.shutdown then none
    else match w.partition.collapseSuperblockIntent with
    | none => some { w with collapsed := true }
    | some intent =>
      some { w with
        partition := (w.partition.requestSuperblockIntent intent needsPersist backedOff).2
        collapsed := true }
  | .restart kept chainStart checkpointEnd left =>
    if w.flushed ≤ kept ∧ left ∈ w.candidates ∧ ∀ c ∈ checkpointEnd, c ∈ w.minted then
      some { w with
        partition := (new w.partition.options left).restorePartitionOffsets
          (w.stored.take kept).getLast? chainStart checkpointEnd left
        record := .fixed left
        stored := w.stored.take kept
        flushed := (w.stored.take kept).length
        shutdown := false
        collapsed := false }
    else none

def run (events : List OffsetEvent) : Option OffsetWorld :=
  events.foldlM step w

/-! ## Safe records -/

/-- The frontier names no offset above those minted. -/
def Reached (minted : List Nat) (frontier : Nat) : Prop :=
  frontier = 0 ∨ ∃ m ∈ minted, frontier ≤ m + 1

/-- Bounds a partition may start from after these offsets were minted. -/
structure SafeBounds (minted : List Nat) (b : OffsetBounds) : Prop where
  reached : Reached minted b.offsetFrontier
  reserved : ∀ m ∈ minted, m < b.offsetReserved
  le : b.offsetFrontier ≤ b.offsetReserved
  fits : b.offsetReserved ≤ u64Max

/-- The bounds of a record; no record is the bounds of a new partition. -/
def boundsOf (record : Option OffsetBounds) : OffsetBounds := record.getD ⟨0, 0⟩

/-- An intent whose write leaves safe bounds. -/
def SafeIntent (minted : List Nat) (collapsed : Bool) : SuperblockIntent → Prop
  | .advance start reserved => start = 0 ∧ reserved ≤ u64Max
  | .collapse start reserved => collapsed = true ∧ SafeBounds minted ⟨start, reserved⟩
  | .install _ | .quarantine _ => False

structure Sound (w : OffsetWorld) : Prop where
  solo : w.partition.options.replicaCount = 1
  superblock : w.partition.options.hasSuperblock = true
  unpersisted : w.partition.options.persisted = false
  sorted : w.minted.Pairwise (· > ·)
  below : ∀ m ∈ w.minted, w.partition.appendLive = true ∧ m ≤ w.partition.dirtyOffset
  dirty : w.partition.dirtyOffset < u64Max
  durable : SafeBounds w.minted
    ⟨w.partition.durableOffsetFrontier, w.partition.durableOffsetReserved⟩
  records : ∀ r ∈ w.candidates, SafeBounds w.minted (boundsOf r)
  ceiling : w.collapsed = false → ∀ r ∈ w.candidates,
    w.partition.durableOffsetReserved ≤ (boundsOf r).offsetReserved
  committed : w.partition.committedSeeded = true → Reached w.minted (w.partition.offset + 1)
  recovered : w.partition.recoveredDurableOffset.isSome = true → w.partition.committedSeeded = true
  sized : ∀ e ∈ w.partition.sizedEnd, e ∈ w.minted
  intent : ∀ i ∈ w.partition.superblockIntent, SafeIntent w.minted w.collapsed i
  running : ∀ write ∈ w.partition.superblockRunning, SafeIntent w.minted w.collapsed write.intent
  stored : ∀ o ∈ w.stored, o ∈ w.minted

variable {minted minted' : List Nat} {w : OffsetWorld} {n : Nat}

theorem Reached.mono (h : Reached minted n) (hsub : ∀ m ∈ minted, m ∈ minted') :
    Reached minted' n :=
  h.imp_right fun ⟨m, hm, hle⟩ => ⟨m, hsub m hm, hle⟩

theorem Reached.of_le {n' : Nat} (h : Reached minted n') (hle : n ≤ n') : Reached minted n := by
  obtain rfl | ⟨m, hm, hm'⟩ := h
  · exact .inl (Nat.le_zero.mp hle)
  · exact .inr ⟨m, hm, hle.trans hm'⟩

theorem Reached.max {n' : Nat} (h : Reached minted n) (h' : Reached minted n') :
    Reached minted (max n n') :=
  max_rec' (Reached minted) h h'

theorem Reached.of_mem {m : Nat} (h : m ∈ minted) : Reached minted (m + 1) :=
  .inr ⟨m, h, le_refl _⟩

theorem Reached.le_of_lt {bound : Nat} (h : Reached minted n) (hbound : ∀ m ∈ minted, m < bound) :
    n ≤ bound := by
  obtain rfl | ⟨m, hm, hle⟩ := h
  · exact Nat.zero_le _
  · exact hle.trans (hbound m hm)

theorem satAdd_le (a b : Nat) : satAdd a b ≤ a + b := min_le_left ..

theorem satAdd_le_max (a b : Nat) : satAdd a b ≤ u64Max := min_le_right ..

theorem satAdd_eq {a b : Nat} (h : a + b ≤ u64Max) : satAdd a b = a + b := min_eq_left h

theorem SafeBounds.mono {b : OffsetBounds} (h : SafeBounds minted b)
    (hsub : ∀ m ∈ minted, m ∈ minted') (hnew : ∀ m ∈ minted', m < b.offsetReserved) :
    SafeBounds minted' b :=
  ⟨h.reached.mono hsub, hnew, h.le, h.fits⟩

theorem SafeIntent.advance (minted : List Nat) (collapsed : Bool) {reserved : Nat}
    (h : reserved ≤ u64Max) : SafeIntent minted collapsed (.advance 0 reserved) := ⟨rfl, h⟩

variable {i : SuperblockIntent}

theorem SafeIntent.mono {collapsed collapsed' : Bool} (h : SafeIntent minted collapsed i)
    (hc : collapsed = true → collapsed' = true) : SafeIntent minted collapsed' i := by
  cases i with
  | advance frontier reserved => exact h
  | collapse frontier reserved => exact ⟨hc h.1, h.2⟩
  | install => exact h
  | quarantine => exact h

theorem SafeIntent.of_open {collapsed : Bool} (h : SafeIntent minted collapsed i)
    (hopen : collapsed = false) : SafeIntent minted' collapsed i := by
  cases i with
  | advance frontier reserved => exact h
  | collapse frontier reserved => exact absurd (h.1.symm.trans hopen) (by decide)
  | install => exact h
  | quarantine => exact h

/-! ## Requests -/

/-- A request changes nothing but the waiting intent and the note of the completed one. -/
def Requested (p p' : OffsetPartition) (intent : SuperblockIntent) : Prop :=
  ∃ completed, p' = { p with superblockCompleted := completed } ∨
    p' = { p with superblockCompleted := completed, superblockIntent := some intent } ∨
    ∃ f r f' r', p.superblockIntent = some (.advance f r) ∧ intent = .advance f' r' ∧
      p' = { p with superblockCompleted := completed
                    superblockIntent := some (.advance (max f f') (max r r')) }

variable (p : OffsetPartition)

theorem requested_queue (intent : SuperblockIntent) (backedOff : Bool) :
    Requested p (p.queueSuperblockIntent intent backedOff).2 intent := by
  refine ⟨p.superblockCompleted, ?_⟩
  unfold queueSuperblockIntent
  split
  · exact .inl rfl
  · split
    · exact .inl rfl
    · split
      case h_1 => exact .inr (.inr ⟨_, _, _, _, ‹_›, rfl, rfl⟩)
      case h_2 =>
        split
        · exact .inl rfl
        · exact .inr (.inl rfl)
      case h_3 => exact .inr (.inl rfl)

theorem requested_request (intent : SuperblockIntent) (needsPersist backedOff : Bool) :
    Requested p (p.requestSuperblockIntent intent needsPersist backedOff).2 intent := by
  unfold requestSuperblockIntent
  split
  · exact ⟨p.superblockCompleted, .inl rfl⟩
  · split
    case h_1 =>
      split
      · exact ⟨p.superblockCompleted, .inl rfl⟩
      · exact requested_queue ..
    case h_2 =>
      split
      · exact ⟨none, .inl rfl⟩
      · exact requested_queue ..
    case h_3 => exact requested_queue ..

variable {partition : OffsetPartition} {intent : SuperblockIntent}

theorem Sound.requested (h : w.Sound) {collapsed : Bool}
    (hrequested : Requested w.partition partition intent)
    (hc : w.collapsed = true → collapsed = true) (hsafe : SafeIntent w.minted collapsed intent) :
    Sound { w with partition, collapsed } := by
  have hceiling : collapsed = false → w.collapsed = false := by simpa using mt hc
  -- the waiting intent is the only part that moves, and stays safe
  suffices hstate : ∀ completed waiting, (∀ i ∈ waiting, SafeIntent w.minted collapsed i) →
      Sound { w with
        collapsed
        partition := { w.partition with superblockCompleted := completed
                                        superblockIntent := waiting } } by
    obtain ⟨completed, rfl | rfl | ⟨f, r, f', r', hpending, rfl, rfl⟩⟩ := hrequested
    · exact hstate completed w.partition.superblockIntent fun i hi => (h.intent i hi).mono hc
    · exact hstate completed (some intent) fun i hi => by cases hi; exact hsafe
    · obtain ⟨rfl, hr⟩ := h.intent _ hpending
      obtain ⟨rfl, hr'⟩ := hsafe
      refine hstate completed _ fun i hi => ?_
      cases hi
      exact .advance _ _ (max_le hr hr')
  intro completed waiting hwaiting
  exact { h with
    ceiling := fun hfalse => h.ceiling (hceiling hfalse)
    intent := hwaiting
    running := fun write hwrite => (h.running write hwrite).mono hc }

theorem Sound.lt_mintFrontier (h : w.Sound) {m : Nat} (hm : m ∈ w.minted) :
    m < w.partition.mintFrontier := by
  obtain ⟨hlive, hle⟩ := h.below m hm
  have hdirty := h.dirty
  rw [mintFrontier, if_pos hlive, satAdd_eq hdirty]
  exact Nat.lt_succ_of_le hle

theorem mintFrontier_le : p.mintFrontier ≤ u64Max := by
  unfold mintFrontier
  split
  · exact satAdd_le_max ..
  · exact Nat.zero_le _

theorem Sound.reached_advancedFrontier (h : w.Sound) :
    Reached w.minted (w.partition.advancedFrontier 0) := by
  have hsized : Reached w.minted (w.partition.sizedEnd.elim 0 (satAdd · 1)) := by
    cases hend : w.partition.sizedEnd with
    | none => exact .inl rfl
    | some e => exact (Reached.of_mem (h.sized e hend)).of_le (satAdd_le e 1)
  have hcommitted : Reached w.minted w.partition.offsetFrontier := by
    unfold offsetFrontier
    split
    case isTrue hseeded => exact (h.committed hseeded).of_le (satAdd_le _ 1)
    case isFalse => exact .inl rfl
  exact ((Reached.max (.inl rfl) (hsized.max hcommitted)).max h.durable.reached)

theorem Sound.safeBounds_superblockState (h : w.Sound) (hi : SafeIntent w.minted w.collapsed i) :
    SafeBounds w.minted (w.partition.superblockState i) ∧ (w.collapsed = false →
      w.partition.durableOffsetReserved ≤ (w.partition.superblockState i).offsetReserved) := by
  cases i with
  | advance frontier reserved =>
    obtain ⟨rfl, hreserved⟩ := hi
    have hfrontier := h.reached_advancedFrontier
    have hfrontierLe := hfrontier.le_of_lt h.durable.reserved
    refine ⟨⟨hfrontier, ?_, le_max_right .., ?_⟩, fun _ => ?_⟩
    · intro m hm
      exact (h.durable.reserved m hm).trans_le ((le_max_right ..).trans (le_max_left ..))
    · exact max_le (max_le hreserved h.durable.fits) (hfrontierLe.trans h.durable.fits)
    · exact (le_max_right ..).trans (le_max_left ..)
  | collapse frontier reserved =>
    obtain ⟨hcollapsed, hsafe⟩ := hi
    have hmax : max reserved frontier = reserved := max_eq_left hsafe.le
    refine ⟨?_, fun hfalse => absurd (hcollapsed.symm.trans hfalse) (by decide)⟩
    simpa [superblockState, hmax] using hsafe
  | install => exact hi.elim
  | quarantine => exact hi.elim

/-! ## One event -/

theorem Sound.admitBatch (h : w.Sound) (count : Nat) (needsPersist backedOff : Bool) :
    Sound { w with
      partition := (w.partition.admitReservedSend count needsPersist backedOff).2 } := by
  unfold admitReservedSend reserveOffsetsThroughRetryable
  split
  · exact h
  · split
    · exact h
    · cases hintent : w.partition.reservationIntent (w.partition.requestMintCeiling count) with
      | none => exact h
      | some intent =>
        simp only [reservationIntent, ite_none_right_eq_some, some.injEq] at hintent
        obtain ⟨-, rfl⟩ := hintent
        exact h.requested (requested_request ..) id (.advance _ _ (satAdd_le_max ..))

theorem Sound.extend (h : w.Sound) (needsPersist backedOff : Bool) :
    Sound { w with
      partition := (w.partition.extendOffsetReservation needsPersist backedOff).2 } :=
  h.requested (requested_request ..) id (.advance _ _ (satAdd_le_max ..))

theorem Sound.collapse (h : w.Sound) (needsPersist backedOff : Bool)
    (hintent : w.partition.collapseSuperblockIntent = some intent) :
    Sound { w with
      partition := (w.partition.requestSuperblockIntent intent needsPersist backedOff).2
      collapsed := true } := by
  simp only [collapseSuperblockIntent, ite_none_right_eq_some, some.injEq] at hintent
  obtain ⟨-, rfl⟩ := hintent
  refine h.requested (requested_request ..) (fun _ => rfl) ⟨rfl, ?_⟩
  have hreached := h.reached_advancedFrontier
  exact ⟨hreached, fun m hm => h.lt_mintFrontier hm,
    hreached.le_of_lt fun m hm => h.lt_mintFrontier hm, mintFrontier_le _⟩

/-- Nothing to collapse: the shutdown is done with its reservation all the same. -/
theorem Sound.collapsed (h : w.Sound) : Sound { w with collapsed := true } :=
  { h with
    ceiling := nofun
    intent := fun i hi => (h.intent i hi).mono fun _ => rfl
    running := fun write hwrite => (h.running write hwrite).mono fun _ => rfl }

/-- A write begins: its record joins those a crash may leave. -/
theorem Sound.start (h : w.Sound) {waiting : Option SuperblockIntent} (lane : Bool)
    (hidle : w.partition.superblockRunning = none) (hsafe : SafeIntent w.minted w.collapsed intent)
    (hwaiting : ∀ i ∈ waiting, SafeIntent w.minted w.collapsed i) :
    Sound { w with
      partition := { w.partition with
        superblockIntent := waiting
        superblockRunning := some ⟨intent, w.partition.superblockState intent, lane⟩ } } := by
  obtain ⟨hstate, hceiling⟩ := h.safeBounds_superblockState hsafe
  have hold : w.candidates = w.record.contents := by simp [candidates, hidle]
  refine { h with
    records := forall_mem_cons.mpr ⟨hstate, hold ▸ h.records⟩
    ceiling := fun hfalse => forall_mem_cons.mpr ⟨hceiling hfalse, hold ▸ h.ceiling hfalse⟩
    intent := hwaiting
    running := ?_ }
  rintro write ⟨rfl⟩
  exact hsafe

theorem Sound.startWrite (h : w.Sound) {backedOff : Bool}
    (hstart : w.partition.startSuperblock backedOff = some partition) :
    Sound { w with partition } := by
  unfold startSuperblock at hstart
  split at hstart
  case h_2 => exact nomatch hstart
  rename_i intent hidle hintent
  simp only [ite_none_right_eq_some, some.injEq] at hstart
  obtain ⟨-, rfl⟩ := hstart
  exact h.start true hidle (h.intent intent hintent) nofun

theorem Sound.reserve (h : w.Sound) {endOffset : Nat}
    (hreserve : w.partition.reserveOffsetsThrough endOffset = some partition) :
    Sound { w with partition } := by
  unfold reserveOffsetsThrough at hreserve
  split at hreserve
  case h_2 => exact nomatch hreserve
  rename_i intent hidle hintent
  simp only [reservationIntent, ite_none_right_eq_some, some.injEq] at hintent
  obtain ⟨-, rfl⟩ := hintent
  simp only [ite_none_left_eq_some, some.injEq] at hreserve
  obtain ⟨-, rfl⟩ := hreserve
  exact h.start false hidle (.advance _ _ (satAdd_le_max ..)) h.intent

variable {p : OffsetPartition}

theorem finishSuperblock_eq {write : SuperblockWrite} {succeeded : Bool}
    (hrunning : p.superblockRunning = some write)
    (hfinish : p.finishSuperblock succeeded = some partition) :
    ∃ completed waiting, (waiting = p.superblockIntent ∨ waiting = some write.intent) ∧
      partition = { p with
        superblockRunning := none
        superblockCompleted := completed
        superblockIntent := waiting
        durableOffsetFrontier :=
          if succeeded then write.state.offsetFrontier else p.durableOffsetFrontier
        durableOffsetReserved :=
          if succeeded then write.state.offsetReserved else p.durableOffsetReserved } := by
  simp only [finishSuperblock, hrunning, map_some, some.injEq] at hfinish
  subst hfinish
  cases hlane : write.lane with
  | false =>
    refine ⟨p.superblockCompleted, p.superblockIntent, .inl rfl, ?_⟩
    cases succeeded <;> rfl
  | true =>
    cases hintent : write.intent with
    | advance f r =>
      cases succeeded with
      | true => exact ⟨some (.advance f r, true), p.superblockIntent, .inl rfl, rfl⟩
      | false =>
        cases hwaiting : p.superblockIntent with
        | none =>
          refine ⟨some (.advance f r, false), some (.advance f r), .inr rfl, ?_⟩
          simp [acceptSuperblock]
        | some i =>
          refine ⟨some (.advance f r, false), some i, .inl rfl, ?_⟩
          simp [acceptSuperblock]
    | install | quarantine | collapse =>
      refine ⟨some (write.intent, succeeded), p.superblockIntent, .inl rfl, ?_⟩
      rw [hintent]
      cases succeeded <;> rfl

theorem Sound.finishWrite (h : w.Sound) {write : SuperblockWrite} {succeeded : Bool} (landed : Bool)
    (hrunning : w.partition.superblockRunning = some write)
    (hfinish : w.partition.finishSuperblock succeeded = some partition) :
    Sound { w with partition, record := recordAfter w.record write.state succeeded landed } := by
  obtain ⟨completed, waiting, hwaiting, rfl⟩ := finishSuperblock_eq hrunning hfinish
  have hold : ∀ r, r = some write.state ∨ r ∈ w.record.contents → r ∈ w.candidates := by
    intro r hr
    simpa [candidates, hrunning] using hr
  have hstate := h.records (some write.state) (hold _ (.inl rfl))
  have hsafeWaiting : ∀ i ∈ waiting, SafeIntent w.minted w.collapsed i := by
    obtain rfl | rfl := hwaiting
    · exact h.intent
    · rintro i ⟨rfl⟩
      exact h.running write hrunning
  cases succeeded with
  | true =>
    exact { h with
      durable := hstate
      records := by simpa [candidates, recordAfter] using hstate
      ceiling := by simp [candidates, recordAfter, boundsOf]
      intent := hsafeWaiting
      running := nofun }
  | false =>
    have hcandidates : ∀ r, r ∈ (recordAfter w.record write.state false landed).contents →
        r ∈ w.candidates := by
      intro r hr
      apply hold
      cases landed with
      | true => simpa [recordAfter] using hr
      | false => exact .inr hr
    exact { h with
      records := fun r hr => h.records r (hcandidates r hr)
      ceiling := fun hfalse r hr => h.ceiling hfalse r (hcandidates r hr)
      intent := hsafeWaiting
      running := nofun }

theorem stampAndAppendMessages_cases {count base : Nat} (hsolo : p.options.replicaCount = 1)
    (hsuperblock : p.options.hasSuperblock = true)
    (h : p.stampAndAppendMessages count = some (base, partition)) :
    (if p.appendLive then base = p.dirtyOffset + 1 else base = 0) ∧ count ≠ 0 ∧
      base + (count - 1) < p.durableOffsetReserved ∧
      partition = { p with appendLive := true, dirtyOffset := base + (count - 1) } := by
  simp only [stampAndAppendMessages, bind_eq_bind,
    bind_eq_some_iff, ite_none_left_eq_some, some.injEq, Prod.mk.injEq] at h
  obtain ⟨next, hnext, hcount, -, hreserved, rfl, rfl⟩ := h
  refine ⟨?_, hcount, ?_, rfl⟩
  · unfold nextOffset at hnext
    split at hnext
    case isTrue hlive =>
      rw [if_pos hlive]
      exact (some.inj (ite_none_right_eq_some.mp hnext).2).symm
    case isFalse hnot =>
      rw [if_neg hnot]
      exact (some.inj hnext).symm
  · simpa [offsetRangeIsReserved, hsolo, hsuperblock] using hreserved

theorem Sound.append (h : w.Sound) (hopen : w.collapsed = false) {count base : Nat}
    (happend : w.partition.stampAndAppendMessages count = some (base, partition)) :
    Sound { w with partition
                   stored := w.stored ++ List.range' base count
                   minted := (List.range' base count).reverse ++ w.minted } := by
  obtain ⟨hbase, hcount, hreserved, rfl⟩ :=
    stampAndAppendMessages_cases h.solo h.superblock happend
  have hold : ∀ m ∈ w.minted, m < base := by
    intro m hm
    obtain ⟨hlive, hle⟩ := h.below m hm
    rw [if_pos hlive] at hbase
    omega
  have hrange : ∀ m ∈ List.range' base count, base ≤ m ∧ m ≤ base + (count - 1) := by
    intro m hm
    obtain ⟨hle, hlt⟩ := mem_range'_1.mp hm
    omega
  have hsub : ∀ m ∈ w.minted, m ∈ (List.range' base count).reverse ++ w.minted :=
    fun m hm => mem_append_right _ hm
  have hlast : ∀ m ∈ (List.range' base count).reverse ++ w.minted, m ≤ base + (count - 1) :=
    forall_mem_append.mpr ⟨fun m hm => (hrange m (mem_reverse.mp hm)).2,
      fun m hm => Nat.le_add_right_of_le (hold m hm).le⟩
  refine { h with
    sorted := ?_, below := ?_, dirty := ?_, durable := ?_, records := ?_
    committed := ?_, sized := ?_, intent := ?_, running := ?_, stored := ?_ }
  · refine pairwise_append.mpr ⟨?_, h.sorted, ?_⟩
    · exact pairwise_reverse.mpr pairwise_lt_range'
    · intro m hm m' hm'
      have hm₁ := (hrange m (mem_reverse.mp hm)).1
      have hm₂ := hold m' hm'
      exact hm₂.trans_le hm₁
  · exact fun m hm => ⟨rfl, hlast m hm⟩
  · exact lt_of_lt_of_le hreserved h.durable.fits
  · exact h.durable.mono hsub fun m hm => (hlast m hm).trans_lt hreserved
  · intro r hr
    have hceiling := h.ceiling hopen r hr
    exact (h.records r hr).mono hsub fun m hm => ((hlast m hm).trans_lt hreserved).trans_le hceiling
  · exact fun hseeded => (h.committed hseeded).mono hsub
  · exact fun e he => hsub e (h.sized e he)
  · exact fun i hi => (h.intent i hi).of_open hopen
  · exact fun write hwrite => (h.running write hwrite).of_open hopen
  · exact forall_mem_append.mpr ⟨fun o ho => hsub o (h.stored o ho),
      fun o ho => mem_append_left _ (mem_reverse.mpr ho)⟩

theorem Sound.commit (h : w.Sound) {endOffset : Nat} (hmem : endOffset ∈ w.stored) :
    Sound { w with partition := w.partition.publishCommitted endOffset } := by
  have hbelow : ∀ m ∈ w.minted, true = true ∧ m ≤ w.partition.dirtyOffset :=
    fun m hm => ⟨rfl, (h.below m hm).2⟩
  simp only [publishCommitted]
  split
  · exact { h with
      below := hbelow
      committed := fun _ => .of_mem (h.stored endOffset hmem)
      recovered := fun _ => rfl }
  case isFalse hcounted =>
    -- the batch was counted in an earlier life, so this one was seeded with a committed offset
    have hrecovered : w.partition.recoveredDurableOffset.isSome = true := by
      cases hr : w.partition.recoveredDurableOffset with
      | none => rw [hr] at hcounted; exact absurd rfl hcounted
      | some d => rfl
    have hseeded := h.recovered hrecovered
    exact { h with
      below := hbelow
      committed := fun _ => h.committed hseeded
      recovered := fun _ => rfl }

theorem Sound.flush (h : w.Sound) (count : Nat) :
    Sound { w with
      flushed := count
      partition := { w.partition with sizedEnd := (w.stored.take count).getLast? } } :=
  { h with
    sized := fun _ he => h.stored _ (mem_of_mem_take (mem_of_getLast? he)) }

/-! ## Restart -/

structure Seeded (minted : List Nat) (p : OffsetPartition) : Prop where
  below : ∀ m ∈ minted, p.appendLive = true ∧ m ≤ p.dirtyOffset
  dirty : p.dirtyOffset < u64Max
  committed : p.committedSeeded = true → Reached minted (p.offset + 1)

variable {recovered : Option OffsetBounds}

/-- `restore_offset_frontier` raises whatever the segments proved to a safe start. -/
theorem seeded_restoreOffsetFrontier (hsolo : p.options.replicaCount = 1)
    (hunpersisted : p.options.persisted = false) (hsafe : SafeBounds minted (boundsOf recovered))
    (hlive : p.appendLive = p.committedSeeded) (hdirty : p.dirtyOffset < u64Max)
    (hcommitted : p.committedSeeded = true → Reached minted (p.offset + 1)) :
    Seeded minted (p.restoreOffsetFrontier recovered) := by
  cases recovered with
  | none => exact ⟨fun m hm => absurd (hsafe.reserved m hm) (Nat.not_lt_zero m), hdirty, hcommitted⟩
  | some state =>
    obtain ⟨hreached, hreserved, hle, hfits⟩ := hsafe
    simp only [boundsOf, getD_some] at hreached hreserved hle hfits
    simp only [restoreOffsetFrontier, hsolo, hunpersisted, and_self, if_true, max_eq_right hle]
    split
    case isTrue hzero =>
      exact ⟨fun m hm => absurd (hreserved m hm) (by omega), hdirty, hcommitted⟩
    case isFalse hpos =>
      split
      case isTrue hnone =>
        simp only [Bool.and_eq_true, Bool.not_eq_true', Bool.or_eq_false_iff, Bool.not_eq_false',
          decide_eq_false_iff_not, not_lt] at hnone
        obtain ⟨-, hlive', hge⟩ := hnone
        exact ⟨fun m hm => ⟨hlive', by have := hreserved m hm; omega⟩, hdirty, hcommitted⟩
      case isFalse =>
        refine ⟨fun m hm => ⟨rfl, ?_⟩, ?_, ?_⟩
        · have hm' := hreserved m hm
          simp only
          split
          · omega
          case isFalse hkeep =>
            simp only [Bool.or_eq_true, Bool.not_eq_true', decide_eq_true_eq, not_or, not_lt] at hkeep
            omega
        · simp only
          split
          · omega
          · exact hdirty
        · intro hseeded
          simp only
          split
          case isTrue hrestored =>
            have hne : state.offsetFrontier ≠ 0 := by
              simpa using (Bool.and_eq_true_iff.mp hrestored).1
            have heq : state.offsetFrontier - 1 + 1 = state.offsetFrontier := by omega
            rw [heq]
            exact hreached
          case isFalse hkeep =>
            apply hcommitted
            simp only [Bool.or_eq_true, decide_eq_true_eq] at hseeded
            obtain hseeded | hfrontier := hseeded
            · exact hseeded
            · have hne : state.offsetFrontier ≠ 0 := by omega
              simp only [Bool.and_eq_true, decide_eq_true_eq, Bool.or_eq_true, Bool.not_eq_true',
                not_and, not_or, hne, ne_eq, not_false_eq_true, forall_true_left] at hkeep
              rw [← hlive]
              simpa using hkeep.1

theorem restoreOffsetFrontier_eq (p : OffsetPartition) (recovered : Option OffsetBounds) :
    ∃ offset dirtyOffset appendLive committedSeeded,
      p.restoreOffsetFrontier recovered =
        { p with offset, dirtyOffset, appendLive, committedSeeded } ∧
      (p.committedSeeded = true → committedSeeded = true) := by
  cases recovered with
  | none => exact ⟨_, _, _, _, rfl, id⟩
  | some state =>
    simp only [restoreOffsetFrontier]
    generalize (if p.options.replicaCount = 1 ∧ p.options.persisted = false then
      state.offsetReserved else 0) = reserved
    split
    · exact ⟨_, _, _, _, rfl, id⟩
    · split
      · exact ⟨_, _, _, _, rfl, id⟩
      · exact ⟨_, _, _, _, rfl, fun h => by simp [h]⟩

theorem mem_of_mem_merge_max {a b : Option Nat} {c : Nat} (h : c ∈ a.merge max b) :
    c ∈ a ∨ c ∈ b := by
  obtain heq | heq := merge_eq_or_eq
    (fun x y => max_rec' (fun c => c = x ∨ c = y) (.inl rfl) (.inr rfl)) a b
  · exact .inl (heq ▸ h)
  · exact .inr (heq ▸ h)

variable {checkpointEnd : Option Nat}

theorem reached_recoveredOffset {sizedEnd chainStart : Option Nat}
    (hsafe : SafeBounds minted (boundsOf recovered)) (hsized : ∀ e ∈ sizedEnd, e ∈ minted)
    (hcheckpoint : ∀ c ∈ checkpointEnd, c ∈ minted) {c : Nat}
    (hc : c ∈ recoveredOffset sizedEnd chainStart checkpointEnd recovered) :
    Reached minted (c + 1) := by
  obtain hc | hc := mem_of_mem_merge_max hc
  · rw [mem_def, or_eq_some_iff] at hc
    obtain hc | ⟨-, hc⟩ := hc
    · exact .of_mem (hsized c hc)
    · simp only [map_eq_some_iff, filter_eq_some_iff, Bool.and_eq_true, decide_eq_true_eq] at hc
      obtain ⟨start, ⟨⟨s, -, rfl⟩, -, hpos⟩, rfl⟩ := hc
      have hfrontier : recovered.elim 0 (·.offsetFrontier) = (boundsOf recovered).offsetFrontier := by
        cases recovered <;> rfl
      rw [hfrontier] at hpos ⊢
      have hle := min_le_right s (boundsOf recovered).offsetFrontier
      exact hsafe.reached.of_le (by omega)
  · exact .of_mem (hcheckpoint c hc)

theorem isSome_recoveredOffset {sizedEnd chainStart : Option Nat}
    (h : (sizedEnd.merge max checkpointEnd).isSome = true) :
    (recoveredOffset sizedEnd chainStart checkpointEnd recovered).isSome = true := by
  unfold recoveredOffset
  cases sizedEnd with
  | some e => cases checkpointEnd <;> simp
  | none =>
    cases checkpointEnd with
    | none => exact nomatch h
    | some c => simp

theorem Sound.restart (h : w.Sound) {kept : Nat} {chainStart : Option Nat}
    {left : Option OffsetBounds} {w' : OffsetWorld}
    (hstep : w.step (.restart kept chainStart checkpointEnd left) = some w') : w'.Sound := by
  obtain ⟨⟨-, hleft, hcheckpoint⟩, ⟨⟩⟩ := ite_none_right_eq_some.mp hstep
  have hsafe := h.records left hleft
  have hsized : ∀ e ∈ (w.stored.take kept).getLast?, e ∈ w.minted :=
    fun e he => h.stored e (mem_of_mem_take (mem_of_getLast? he))
  generalize hend : (w.stored.take kept).getLast? = sizedEnd at hsized ⊢
  simp only [restorePartitionOffsets]
  generalize hcurrent :
    recoveredOffset sizedEnd chainStart checkpointEnd left = current
  have hreached : ∀ c ∈ current, Reached w.minted (c + 1) := fun c hc =>
    reached_recoveredOffset hsafe hsized hcheckpoint (hcurrent ▸ hc)
  -- the offset found on disk is below every reservation that covers the messages
  have hdirty : current.getD 0 < u64Max := by
    cases current with
    | none => exact (by decide : 0 < u64Max)
    | some c => exact Nat.lt_of_succ_le (((hreached c rfl).le_of_lt hsafe.reserved).trans hsafe.fits)
  have hcommitted : current.isSome = true → Reached w.minted (current.getD 0 + 1) := by
    cases current with
    | none => exact nofun
    | some c => exact fun _ => hreached c rfl
  have hbounds : SafeBounds w.minted
      ⟨left.elim 0 (·.offsetFrontier), left.elim 0 (·.offsetReserved)⟩ := by
    cases left <;> exact hsafe
  have hseeded := seeded_restoreOffsetFrontier
    (p := (new w.partition.options left).seedOffsets current sizedEnd checkpointEnd)
    h.solo h.unpersisted hsafe rfl hdirty hcommitted
  obtain ⟨offset, dirtyOffset, appendLive, committedSeeded, heq, hkeeps⟩ :=
    restoreOffsetFrontier_eq
      ((new w.partition.options left).seedOffsets current sizedEnd checkpointEnd) left
  rw [heq] at hseeded ⊢
  have honly : ∀ r ∈ (none : Option SuperblockWrite).toList.map (fun write => some write.state) ++
      [left], r = left := fun r hr => by simpa using hr
  exact {
    solo := h.solo
    superblock := h.superblock
    unpersisted := h.unpersisted
    sorted := h.sorted
    below := hseeded.below
    dirty := hseeded.dirty
    durable := hbounds
    records := fun r hr => honly r hr ▸ hsafe
    ceiling := fun _ r hr => by
      rw [honly r hr]
      cases left <;> exact le_refl _
    committed := hseeded.committed
    recovered := fun hr => hkeeps (hcurrent ▸ isSome_recoveredOffset hr)
    sized := hsized
    intent := nofun
    running := nofun
    stored := fun o ho => h.stored o (mem_of_mem_take ho) }

/-! ## Runs -/

theorem Sound.fresh {options : PartitionOptions} (hsolo : options.replicaCount = 1)
    (hsuperblock : options.hasSuperblock = true) (hunpersisted : options.persisted = false) :
    (fresh options).Sound := by
  have hzero : SafeBounds [] ⟨0, 0⟩ := ⟨.inl rfl, nofun, le_refl _, Nat.zero_le _⟩
  have honly : ∀ r ∈ (OffsetWorld.fresh options).candidates, r = none := fun r hr => by
    simpa [candidates, OffsetWorld.fresh, new] using hr
  exact {
    solo := hsolo
    superblock := hsuperblock
    unpersisted := hunpersisted
    sorted := List.Pairwise.nil
    below := nofun
    dirty := (by decide : 0 < u64Max)
    durable := hzero
    records := fun r hr => honly r hr ▸ hzero
    ceiling := fun _ _ _ => Nat.zero_le _
    committed := nofun
    recovered := nofun
    sized := nofun
    intent := nofun
    running := nofun
    stored := nofun }

theorem Sound.step (h : w.Sound) {event : OffsetEvent} {w' : OffsetWorld}
    (hstep : w.step event = some w') : w'.Sound := by
  cases event with
  | admitBatch count needsPersist backedOff =>
    obtain ⟨-, ⟨⟩⟩ := ite_none_left_eq_some.mp hstep
    exact h.admitBatch count needsPersist backedOff
  | append count =>
    obtain ⟨hopen, hstep⟩ := ite_none_left_eq_some.mp hstep
    split at hstep
    · exact some.inj hstep ▸ h
    case h_2 base partition happend =>
      exact some.inj hstep ▸ h.append (Bool.eq_false_of_not_eq_true hopen) happend
  | commit endOffset =>
    obtain ⟨hmem, ⟨⟩⟩ := ite_none_right_eq_some.mp hstep
    exact h.commit hmem
  | flush count =>
    obtain ⟨-, ⟨⟩⟩ := ite_none_right_eq_some.mp hstep
    exact h.flush count
  | extend needsPersist backedOff =>
    obtain ⟨-, ⟨⟩⟩ := ite_none_left_eq_some.mp hstep
    exact h.extend needsPersist backedOff
  | reserve endOffset =>
    obtain ⟨-, hstep⟩ := ite_none_left_eq_some.mp hstep
    obtain ⟨partition, hreserve, rfl⟩ := map_eq_some_iff.mp hstep
    exact h.reserve hreserve
  | startWrite backedOff =>
    obtain ⟨partition, hstart, rfl⟩ := map_eq_some_iff.mp hstep
    exact h.startWrite hstart
  | finishWrite succeeded landed =>
    simp only [OffsetWorld.step] at hstep
    split at hstep
    case h_1 write partition hrunning hfinish =>
      exact some.inj hstep ▸ h.finishWrite landed hrunning hfinish
    case h_2 => exact nomatch hstep
  | beginShutdown =>
    cases hstep
    exact { h with }
  | collapse needsPersist backedOff =>
    obtain ⟨-, hstep⟩ := ite_none_left_eq_some.mp hstep
    split at hstep
    · exact some.inj hstep ▸ h.collapsed
    case h_2 intent hintent =>
      exact some.inj hstep ▸ h.collapse needsPersist backedOff hintent
  | restart => exact h.restart hstep

theorem Sound.run (h : w.Sound) {events : List OffsetEvent} {w' : OffsetWorld}
    (hrun : w.run events = some w') : w'.Sound :=
  foldlM_some_invariant _ (fun _ _ _ _ h hstep => h.step hstep) h hrun

end OffsetWorld

/-- **No offset is minted twice.** In every run of a partition with one replica, its crashes and
restarts included, each minted offset is above all minted before it, and a committed offset is never
above what a message reached. -/
theorem offsets_minted_once {options : PartitionOptions} (hsolo : options.replicaCount = 1)
    (hsuperblock : options.hasSuperblock = true) (hunpersisted : options.persisted = false)
    {events : List OffsetEvent} {w : OffsetWorld}
    (hrun : (OffsetWorld.fresh options).run events = some w) :
    w.minted.Pairwise (· > ·) ∧
      (w.partition.committedSeeded = true → ∃ m ∈ w.minted, w.partition.offset ≤ m) := by
  have hsound := (OffsetWorld.Sound.fresh hsolo hsuperblock hunpersisted).run hrun
  refine ⟨hsound.sorted, fun hseeded => ?_⟩
  obtain hzero | ⟨m, hm, hle⟩ := hsound.committed hseeded
  · exact absurd hzero (Nat.succ_ne_zero _)
  · exact ⟨m, hm, Nat.le_of_succ_le_succ hle⟩

def soloOptions : PartitionOptions :=
  { replicaCount := 1, hasSuperblock := true, persisted := false, offsetReservationLease := 1 }

/-- A partition that reserves, mints, flushes part and crashes during a write of its record. -/
def crashingRun : List OffsetEvent :=
  [.admitBatch 3 true false, .startWrite false, .finishWrite true true, .append 4, .flush 2, .commit 3,
    .extend false false, .startWrite false, .restart 2 none (some 1) (some ⟨0, 4⟩),
    .admitBatch 1 false false, .startWrite false, .finishWrite true true, .append 1]

theorem offsets_minted_once_after_crash :
    ((OffsetWorld.fresh soloOptions).run crashingRun).map (·.minted) = some [4, 3, 2, 1, 0] ∧
    ∀ w, (OffsetWorld.fresh soloOptions).run crashingRun = some w →
      w.minted.Pairwise (· > ·) ∧
        (w.partition.committedSeeded = true → ∃ m ∈ w.minted, w.partition.offset ≤ m) :=
  ⟨by decide +kernel, fun _ hrun => offsets_minted_once rfl rfl rfl hrun⟩

end Iggy
