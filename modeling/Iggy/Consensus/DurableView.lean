import Iggy.Consensus.SuperblockCodec
import Iggy.Journal.PingPongCrash

/-!
# A view acted in survives every crash

Source: impls.rs:1760-1808, 2772-2777; metadata.rs:4262-4370; iggy_partition.rs:2547-2770;
recovery.rs:493-518; partition_helpers.rs:103-126.

The gate in front of every view-scoped send is there "so a replica that acted in a view can never
recover an older one after a crash". Gate, store, record codec and boot path have to agree for that.
A `Node` is one replica with its slot files; a write may stop at any call, and a crash leaves in
each slot anything that no completed directory sync ruled out.

A restart follows a crash of the machine: a process that dies between the rename and the directory
sync and starts again on a running machine reads a record that a power failure may still take back,
which is not covered.
-/

namespace Iggy

open PingPongSuperblock VsrState SlotFiles

namespace VsrConsensus

/-! ## Booting from the record -/

/-- `ViewRestore` (impls.rs:1630-1634). -/
structure ViewRestore where
  durableView : Option (Nat × Nat)
  viewFallback : Option Nat
  seedView : Option Nat

def setLogView (s : VsrConsensus) (logView : Nat) : VsrConsensus :=
  { s with logView, logViewProven := if s.group ≠ metadataGroup then logView else s.logViewProven }

/-- `restore_view`: the durable record, else the uncertified floor, else the seed. -/
def restoreView (s : VsrConsensus) (restore : ViewRestore) : VsrConsensus :=
  match restore.durableView, restore.viewFallback, restore.seedView with
  | some (view, logView), fallback, _ =>
    let installedView := if logView = 0 then max view (fallback.getD 0) else view
    ({ s with view := installedView }.setLogView logView).markSuperblockDurable view logView
  | none, some view, _ => { s with view }
  | none, none, some view => { s with view }.setLogView view
  | none, none, none => s

end VsrConsensus

/-- The record a boot goes on from, if there is one; `none` where it refuses to start. -/
def recovered (xxh3 : Bytes → Nat) : SuperblockContents → Option (Option VsrState)
  | .empty => some none
  | .present payload => (tryFrom xxh3 payload).toOption.map some
  | .unreadable _ => none

def recordedView (record : Option VsrState) : Nat := (record.map view).getD 0

structure Node where
  consensus : VsrConsensus
  /-- The state a write captured when it began. -/
  inFlight : Option VsrState
  files : SlotFiles
  store : PingPongSuperblock
  /-- The highest view that was let through the gate. -/
  acted : Nat

section

variable (xxh3 : Bytes → Nat) (hash : Bytes → UInt64)

/-- The write of `r` ends; if it completed, what waited for it may be sent. -/
def Node.written (n : Node) (r : VsrState) (stop : Option ReplaceStep) : Node :=
  match n.store.write hash n.files r.toBytes stop with
  | (.ok _, store, files) =>
    ⟨n.consensus.recordWritten r, none, files, store, max n.acted r.view⟩
  | (.error _, store, files) => { n with inFlight := none, files, store }

/-- Only a write and a boot set the mark; `other` is a step outside the view change, which leaves
the gate alone and takes no view back. -/
inductive NodeStep : Node → Node → Prop
  | handled {n t} (h : n.consensus.Handled xxh3 t) : NodeStep n { n with consensus := t }
  | other {n} (t : VsrConsensus) (hgate : t.gate = n.consensus.gate)
      (hview : n.consensus.view ≤ t.view) : NodeStep n { n with consensus := t }
  | send {n} (h : n.consensus.needsSuperblockPersist = false) :
      NodeStep n { n with acted := max n.acted n.consensus.view }
  | begin {n r op checksum frontier reserved} (h : n.inFlight = none)
      (hr : r = n.consensus.capture op checksum frontier reserved) (hfits : r.Fits)
      (hlog : r.logView ≤ r.view) (hadopted : ∀ a ∈ r.adoptedView,
        a.headers.length ≤ dvcHeadersMax ∧ a.validate xxh3 r.cluster r.view = true) :
      NodeStep n { n with inFlight := some r }
  | write {n r} (stop : Option ReplaceStep) (h : n.inFlight = some r)
      (hsequence : n.store.nextSequence + 1 < 2 ^ 64) : NodeStep n (n.written hash r stop)
  | crash {n record} (left : Slot → Option Bytes) (fresh : VsrConsensus)
      (restore : VsrConsensus.ViewRestore) (hleft : ∀ slot, left slot ∈ (n.files slot).contents)
      (hfresh : fresh.viewDurable = 0)
      (hread : recovered xxh3 (openWithLatest hash (.leave left)).2 = some record)
      (hrestore : restore.durableView.map Prod.fst = record.map view) :
      NodeStep n ⟨fresh.restoreView restore, none, .leave left,
        (openWithLatest hash (.leave left)).1, n.acted⟩

/-! ## What stands in the slots -/

def Records (view : Nat) : SlotClass → Prop
  | .absent => view = 0
  | .corrupt _ => False
  | .valid _ payload => ∃ r, tryFrom xxh3 payload = .ok r ∧ r.view = view

def Older (bound : Nat) (c : SlotClass) : Prop :=
  c = .absent ∨ ∃ s payload, c = .valid s payload ∧ s < bound

/-- `base` is what the slot that is not written next holds for sure, and it records `view`. The
other one is older, or holds what a failed write left. -/
structure OnDisk (files : SlotFiles) (store : PingPongSuperblock) (base : SlotClass) (view : Nat) :
    Prop where
  writable : store.degraded = false
  fits : store.nextSequence < 2 ^ 64
  behind : base.sequenceOf.getD 0 < store.nextSequence
  records : Records xxh3 view base
  held : ∀ content ∈ (files store.nextSlot.other).contents, readSlot hash content = base
  spare : ∀ content ∈ (files store.nextSlot).contents,
    Older (base.sequenceOf.getD 0) (readSlot hash content) ∨
    ∃ s payload r, readSlot hash content = .valid s payload ∧
      tryFrom xxh3 payload = .ok r ∧ base.sequenceOf.getD 0 < s ∧ s + 1 < 2 ^ 64 ∧
        view ≤ r.view

variable {xxh3 hash} {files : SlotFiles} {store : PingPongSuperblock} {base : SlotClass}
  {view : Nat} {r : VsrState} {left : Slot → Option Bytes} {n n' : Node}

theorem Records.older (h : Records xxh3 view base) {bound : Nat}
    (hlt : base.sequenceOf.getD 0 < bound) : Older bound base := by
  cases base with
  | absent => exact .inl rfl
  | corrupt _ => exact h.elim
  | valid s payload => exact .inr ⟨s, payload, rfl, hlt⟩

theorem OnDisk.write (h : OnDisk xxh3 hash files store base view)
    (hsequence : store.nextSequence + 1 < 2 ^ 64) (hread : tryFrom xxh3 r.toBytes = .ok r)
    (hview : view ≤ r.view) (stop : Option ReplaceStep) :
    (∃ e files', store.write hash files r.toBytes stop = (.error e, store, files') ∧
      OnDisk xxh3 hash files' store base view) ∨
    ∃ store' files' base', store.write hash files r.toBytes stop = (.ok (), store', files') ∧
      OnDisk xxh3 hash files' store' base' r.view := by
  obtain ⟨e, hw⟩ | ⟨record, hrecord, hw⟩ := write_cases hash files h.writable r.toBytes stop
  · exact .inl ⟨e, files, hw, h⟩
  have hslot := readSlot_buildRecord hrecord h.fits
  obtain ⟨e, hw⟩ | hw := hw
  · refine .inl ⟨e, _, hw, { h with
      held := by simpa using h.held, spare := fun content hmem => ?_ }⟩
    obtain rfl | hmem := mem_contents_rename hmem
    · exact .inr ⟨_, _, r, hslot, hread, h.behind, hsequence, hview⟩
    · exact h.spare content hmem
  · rw [Nat.mod_eq_of_lt hsequence] at hw
    refine .inr ⟨_, _, .valid store.nextSequence r.toBytes, hw, h.writable, hsequence,
      Nat.lt_succ_self _, ⟨r, hread, rfl⟩, fun content hmem => ?_, fun content hmem => .inl ?_⟩
    · obtain rfl : content = some record := by simpa [sync] using hmem
      exact hslot
    · -- the sync fixed the old base as well
      obtain rfl : content = (files store.nextSlot.other).visible := by
        simpa [sync] using hmem
      rw [h.held _ Lib.CrashCell.visible_mem_contents]
      exact h.records.older h.behind

/-- A boot goes on from the newer record and aims at the other slot. -/
theorem onDisk_of_newest {slot : Slot} {s : Nat} {payload : Bytes}
    (hslot : readSlot hash (left slot) = .valid s payload) (hs : s + 1 < 2 ^ 64)
    (hread : tryFrom xxh3 payload = .ok r)
    (hother : Older s (readSlot hash (left slot.other))) :
    recovered xxh3 (openWithLatest hash (.leave left)).2 = some (some r) ∧
      OnDisk xxh3 hash (.leave left) (openWithLatest hash (.leave left)).1 (.valid s payload)
        r.view := by
  have hopen : openWithLatest hash (.leave left) =
      (⟨s + 1, slot.other, false⟩, .present payload) := by
    obtain h | ⟨s', payload', h, hlt⟩ := hother
    all_goals
      cases slot <;> simp only [Slot.other] at h <;>
        simp [openWithLatest, leave, hslot, h, SlotClass.sequenceOf, combineSlots,
          aIsNewest, SlotClass.hasUnreadableSequence, Slot.other] <;> omega
  rw [hopen]
  refine ⟨by simp [recovered, hread, Except.toOption], rfl, hs, Nat.lt_succ_self s,
    ⟨r, hread, rfl⟩, fun content hmem => ?_, fun content hmem => .inl ?_⟩
  · obtain rfl : content = left slot := by simpa [leave] using hmem
    exact hslot
  · obtain rfl : content = left slot.other := by simpa [leave] using hmem
    exact hother

/-- Whatever a crash leaves, the boot reads at least the base's view. -/
theorem OnDisk.crash (h : OnDisk xxh3 hash files store base view)
    (hleft : ∀ slot, left slot ∈ (files slot).contents) :
    ∃ record base', recovered xxh3 (openWithLatest hash (.leave left)).2 = some record ∧
      view ≤ recordedView record ∧ OnDisk xxh3 hash (.leave left)
        (openWithLatest hash (.leave left)).1 base' (recordedView record) := by
  have hheld := h.held _ (hleft _)
  have hrecords := h.records
  obtain hold | ⟨s, payload, r, hspare, hread, hnew, hs, hview⟩ := h.spare _ (hleft _)
  · cases base with
    | corrupt _ => exact hrecords.elim
    | valid s payload =>
      obtain ⟨r, hread, rfl⟩ := hrecords
      have hs : s + 1 < 2 ^ 64 := Nat.lt_of_le_of_lt h.behind h.fits
      obtain ⟨hrecovered, hdisk⟩ := onDisk_of_newest hheld hs hread
        (by rw [Slot.other_other]; exact hold)
      exact ⟨some r, _, hrecovered, le_rfl, hdisk⟩
    | absent =>
      -- no write has completed yet, and nothing of a failed one survived
      obtain hspare | ⟨s, payload, -, hlt⟩ := hold
      · have hnone : ∀ slot, readSlot hash (left slot) = .absent := by
          intro slot
          obtain rfl | rfl := store.nextSlot.eq_or_eq_other slot
          exacts [hspare, hheld]
        have hopen : openWithLatest hash (.leave left) = (⟨1, .a, false⟩, .empty) := by
          simp [openWithLatest, leave, hnone, SlotClass.sequenceOf, combineSlots,
            aIsNewest, SlotClass.hasUnreadableSequence]
        rw [hopen]
        refine ⟨none, .absent, rfl, hrecords.le, rfl, by decide, by decide, rfl,
          fun content hmem => ?_, fun content hmem => .inl (.inl ?_)⟩ <;>
        · obtain rfl : content = left _ := by simpa [leave] using hmem
          exact hnone _
      · exact absurd hlt (Nat.not_lt_zero s)
  · obtain ⟨hrecovered, hdisk⟩ := onDisk_of_newest hspare hs hread (hheld ▸ hrecords.older hnew)
    exact ⟨some r, _, hrecovered, hview, hdisk⟩

/-! ## Runs -/

variable (xxh3 hash) in
/-- The disk records the view that is marked durable, and nothing was sent in a later one. -/
structure Durable (n : Node) : Prop where
  disk : ∃ base, OnDisk xxh3 hash n.files n.store base n.consensus.viewDurable
  acted : n.acted ≤ n.consensus.viewDurable
  view : n.consensus.viewDurable ≤ n.consensus.view
  flight : ∀ r, n.inFlight = some r → tryFrom xxh3 r.toBytes = .ok r ∧
    n.consensus.viewDurable ≤ r.view ∧ r.view ≤ n.consensus.view

theorem Durable.written (h : Durable xxh3 hash n) (hflight : n.inFlight = some r)
    (hsequence : n.store.nextSequence + 1 < 2 ^ 64) (stop : Option ReplaceStep) :
    Durable xxh3 hash (n.written hash r stop) := by
  obtain ⟨base, hdisk⟩ := h.disk
  obtain ⟨hread, hle, hle'⟩ := h.flight r hflight
  obtain ⟨e, files', hw, hdisk'⟩ | ⟨store', files', base', hw, hdisk'⟩ :=
    hdisk.write hsequence hread hle stop
  · simp only [Node.written, hw]
    exact ⟨⟨base, hdisk'⟩, h.acted, h.view, fun _ hr => by cases hr⟩
  · have hmark : (n.consensus.recordWritten r).viewDurable = r.view :=
      congrArg VsrConsensus.Gate.viewDurable (n.consensus.gate_recordWritten r)
    have hview : (n.consensus.recordWritten r).view = n.consensus.view := by
      unfold VsrConsensus.recordWritten VsrConsensus.markAdoptedViewDurable
      simp only
      split_ifs <;> rfl
    simp only [Node.written, hw]
    exact ⟨⟨base', hmark ▸ hdisk'⟩, (max_le (h.acted.trans hle) le_rfl).trans hmark.ge,
      hmark.le.trans (hle'.trans hview.ge), fun _ hr => by cases hr⟩

theorem restoreView_recorded {fresh : VsrConsensus} (hfresh : fresh.viewDurable = 0)
    {restore : VsrConsensus.ViewRestore} {record : Option VsrState}
    (h : restore.durableView.map Prod.fst = record.map VsrState.view) :
    (fresh.restoreView restore).viewDurable = recordedView record ∧
      recordedView record ≤ (fresh.restoreView restore).view := by
  unfold recordedView
  rw [← h]
  obtain ⟨_ | ⟨view, logView⟩, fallback, seed⟩ := restore
  · rcases fallback with _ | _ <;> rcases seed with _ | _ <;> exact ⟨hfresh, Nat.zero_le _⟩
  · refine ⟨rfl, ?_⟩
    change view ≤ if logView = 0 then max view _ else view
    split_ifs
    exacts [le_max_left _ _, le_rfl]

theorem Durable.climbs (h : Durable xxh3 hash n) {t : VsrConsensus} (ht : n.consensus.Climbs t) :
    Durable xxh3 hash { n with consensus := t } := by
  have hmark : t.viewDurable = n.consensus.viewDurable := ht.keeps.viewDurable
  refine ⟨hmark ▸ h.disk, hmark ▸ h.acted, hmark ▸ h.view.trans ht.view, fun r hr => ?_⟩
  obtain ⟨hread, hle, hle'⟩ := h.flight r hr
  exact ⟨hread, hmark ▸ hle, hle'.trans ht.view⟩

/-- **One step** keeps what the disk records at or above what was sent. -/
theorem Durable.step (h : Durable xxh3 hash n) (hstep : NodeStep xxh3 hash n n') :
    Durable xxh3 hash n' := by
  cases hstep with
  | handled ht => exact h.climbs ht.climbs
  | other t hgate hview => exact h.climbs ⟨hgate ▸ .refl _, hview⟩
  | send hneeds =>
    simp only [VsrConsensus.needsSuperblockPersist, Bool.or_eq_false_iff, bne_eq_false_iff_eq]
      at hneeds
    exact { h with acted := max_le h.acted hneeds.1.1.1.le }
  | @begin r _ _ _ _ _ hr hfits hlog hadopted =>
    have hview : r.view = n.consensus.view := by
      rw [hr, VsrConsensus.capture]
      split_ifs <;> rfl
    refine { h with flight := fun r' hr' => ?_ }
    cases hr'
    exact ⟨VsrState.tryFrom_toBytes hfits hlog hadopted, hview ▸ h.view, hview.le⟩
  | write stop hflight hsequence => exact h.written hflight hsequence stop
  | crash left fresh restore hleft hfresh hread hrestore =>
    obtain ⟨base, hdisk⟩ := h.disk
    obtain ⟨record, base', hrecovered, hle, hdisk'⟩ := hdisk.crash hleft
    obtain rfl := Option.some.inj (hread.symm.trans hrecovered)
    obtain ⟨hmark, hview⟩ := restoreView_recorded hfresh hrestore
    exact ⟨⟨base', hmark ▸ hdisk'⟩, hmark ▸ h.acted.trans hle, hmark ▸ hview,
      fun _ hr => by cases hr⟩

variable (hash) in
def Node.boot (fresh : VsrConsensus) : Node :=
  ⟨fresh, none, .leave fun _ => none, (openWithLatest hash (.leave fun _ => none)).1, 0⟩

def Node.ballot (n : Node) : VsrState :=
  n.consensus.handleNormalHeartbeatTimeout.1.capture 0 0 0 0

def Node.elects (n : Node) (stop : Option ReplaceStep) : Node :=
  Node.written (fun _ => 0)
    { n with consensus := n.consensus.handleNormalHeartbeatTimeout.1, inFlight := some n.ballot }
    n.ballot stop

theorem Node.elects_run (hflight : n.inFlight = none) (hfits : n.ballot.Fits)
    (hlog : n.ballot.logView ≤ n.ballot.view) (hadopted : n.ballot.adoptedView = none)
    (hsequence : n.store.nextSequence + 1 < 2 ^ 64) (stop : Option ReplaceStep) :
    Relation.ReflTransGen (NodeStep (fun _ => 0) fun _ => 0) n (n.elects stop) :=
  ((Relation.ReflTransGen.single (.handled .normalHeartbeatTimeout)).tail
    (.begin hflight rfl hfits hlog fun a ha => by rw [hadopted] at ha; cases ha)).tail
    (.write stop rfl hsequence)

/-- The last of three replicas, the primary of neither view 0 nor view 1. -/
def lastReplica : VsrConsensus :=
  { VsrConsensus.metadataBackup with replica := 2, replica_lt := by decide }

def electedNode : Node := (Node.boot (fun _ => 0) lastReplica).elects none

def rebootedNode : Node :=
  let left := fun slot => (electedNode.files slot).visible
  ⟨lastReplica.restoreView ⟨some (1, 0), none, none⟩, none, .leave left,
    (openWithLatest (fun _ => 0) (.leave left)).1, electedNode.acted⟩

end

end Iggy
