import Iggy.Journal.PingPong

/-!
# Superblock writes across crashes and reopens

A process opens the store, writes to it, and may die at any call of a write. After any run the
newest record on the files is the one of the last write that returned `Ok`, or of a write attempted
after it (`reads_last_ok_or_later`).

The invariant is about every content a crash could leave (`CrashCell.contents`). `Anchored` names
the slot that holds the last completed record: what survives there is that record or a later
attempt, and what survives in the other slot is older or a later attempt. `Aimed` says where the
store may write without losing it.
-/

namespace Iggy

open List Lib PingPongSuperblock

structure Attempt where
  payload : Bytes
  result : Except SuperblockError Unit
  deriving DecidableEq

/-- The slot files, the open store if there is one, and the attempts, newest first. -/
structure SuperblockProcess where
  files : SlotFiles
  store : Option PingPongSuperblock
  attempts : List Attempt

inductive SuperblockEvent
  | reopen
  | write (payload : Bytes) (stop : Option ReplaceStep)
  | crash (left : Slot → Option Bytes)

namespace SuperblockEvent

def isWrite : SuperblockEvent → Bool
  | .write _ _ => true
  | .reopen | .crash _ => false

end SuperblockEvent

namespace SuperblockProcess

variable (xxh3 : Bytes → UInt64)

/-- A write needs an open store, and a crash leaves in each slot something it held. -/
def step (p : SuperblockProcess) : SuperblockEvent → Option SuperblockProcess
  | .reopen => some { p with store := some (openWithLatest xxh3 p.files).1 }
  | .write payload stop => p.store.map fun sb =>
    let (result, sb, files) := sb.write xxh3 p.files payload stop
    { files, store := some sb, attempts := ⟨payload, result⟩ :: p.attempts }
  | .crash left =>
    if left .a ∈ (p.files .a).contents ∧ left .b ∈ (p.files .b).contents then
      some { p with files := .leave left, store := none }
    else none

def run (p : SuperblockProcess) (events : List SuperblockEvent) : Option SuperblockProcess :=
  events.foldlM (step xxh3) p

end SuperblockProcess

/-! ## What the slots hold -/

namespace SlotFiles

variable (xxh3 : Bytes → UInt64)

/-- Whatever a crash leaves is absent or a record with a sequence up to `bound`. -/
def CleanUpTo (files : SlotFiles) (bound : Nat) : Prop :=
  ∀ slot, ∀ content ∈ (files slot).contents, readSlot xxh3 content = .absent ∨
    ∃ s q, readSlot xxh3 content = .valid s q ∧ s ≤ bound

def LaterRecord (later : List Attempt) (s : Nat) (content : Option Bytes) : Prop :=
  ∃ s' attempt, attempt ∈ later ∧ s < s' ∧ readSlot xxh3 content = .valid s' attempt.payload

/-- The record `(s, payload)` stands in `slot`, and only attempts of `later` may have covered it. -/
structure Anchored (files : SlotFiles) (slot : Slot) (s : Nat) (payload : Bytes)
    (later : List Attempt) : Prop where
  held : ∀ content ∈ (files slot).contents,
    readSlot xxh3 content = .valid s payload ∨ LaterRecord xxh3 later s content
  older : ∀ content ∈ (files slot.other).contents,
    readSlot xxh3 content = .absent ∨ (∃ s' q, readSlot xxh3 content = .valid s' q ∧ s' < s) ∨
      LaterRecord xxh3 later s content

variable {xxh3} {files : SlotFiles} {slot slot' : Slot} {s n bound : Nat} {payload q : Bytes}
  {record : Bytes} {later : List Attempt} {attempt : Attempt} {content : Option Bytes}
  {left : Slot → Option Bytes}

theorem mem_contents_rename (h : content ∈ (files.rename slot' record slot).contents) :
    content = some record ∨ content ∈ (files slot).contents := by
  obtain rfl | rfl := slot'.eq_or_eq_other slot
  · simpa using h
  · exact .inr (by simpa using h)

theorem mem_contents_leave (hleft : left .a ∈ (files .a).contents ∧ left .b ∈ (files .b).contents)
    (h : content ∈ (leave left slot).contents) : content ∈ (files slot).contents := by
  obtain rfl : content = left slot := by simpa [leave] using h
  cases slot with
  | a => exact hleft.1
  | b => exact hleft.2

theorem mem_contents_of_sync (h : content ∈ (files.sync slot).contents) :
    content ∈ (files slot).contents := by
  obtain rfl : content = (files slot).visible := by simpa [sync] using h
  exact CrashCell.visible_mem_contents

namespace CleanUpTo

theorem mono {bound' : Nat} (h : files.CleanUpTo xxh3 bound) (hle : bound ≤ bound') :
    files.CleanUpTo xxh3 bound' := by
  intro slot content hmem
  obtain habsent | ⟨s, q, hread, hs⟩ := h slot content hmem
  · exact .inl habsent
  · exact .inr ⟨s, q, hread, hs.trans hle⟩

section

variable (h : files.CleanUpTo xxh3 bound)
include h

theorem rename (slot' : Slot) (hread : readSlot xxh3 (some record) = .valid n q) (hn : n ≤ bound) :
    (files.rename slot' record).CleanUpTo xxh3 bound := by
  intro slot content hmem
  obtain rfl | hmem := mem_contents_rename hmem
  · exact .inr ⟨n, q, hread, hn⟩
  · exact h slot content hmem

theorem sync : files.sync.CleanUpTo xxh3 bound :=
  fun slot content hmem => h slot content (mem_contents_of_sync hmem)

theorem leave (hleft : left .a ∈ (files .a).contents ∧ left .b ∈ (files .b).contents) :
    (SlotFiles.leave left).CleanUpTo xxh3 bound :=
  fun slot content hmem => h slot content (mem_contents_leave hleft hmem)

end

end CleanUpTo

theorem LaterRecord.cons (h : LaterRecord xxh3 later s content) :
    LaterRecord xxh3 (attempt :: later) s content := by
  obtain ⟨s', made, hmade, hlt, hread⟩ := h
  exact ⟨s', made, mem_cons_of_mem _ hmade, hlt, hread⟩

namespace Anchored

section

variable (h : files.Anchored xxh3 slot s payload later)
include h

theorem cons : files.Anchored xxh3 slot s payload (attempt :: later) where
  held content hmem := (h.held content hmem).imp_right .cons
  older content hmem := (h.older content hmem).imp_right (.imp_right .cons)

theorem rename (hread : readSlot xxh3 (some record) = .valid n attempt.payload) (hn : s < n) :
    (files.rename slot' record).Anchored xxh3 slot s payload (attempt :: later) := by
  have hnew : LaterRecord xxh3 (attempt :: later) s (some record) :=
    ⟨n, attempt, mem_cons_self, hn, hread⟩
  constructor
  · intro content hmem
    obtain rfl | hmem := mem_contents_rename hmem
    · exact .inr hnew
    · exact h.cons.held content hmem
  · intro content hmem
    obtain rfl | hmem := mem_contents_rename hmem
    · exact .inr (.inr hnew)
    · exact h.cons.older content hmem

theorem leave (hleft : left .a ∈ (files .a).contents ∧ left .b ∈ (files .b).contents) :
    (SlotFiles.leave left).Anchored xxh3 slot s payload later where
  held content hmem := h.held content (mem_contents_leave hleft hmem)
  older content hmem := h.older content (mem_contents_leave hleft hmem)

end

/-- The sync fixed what the other slot shows. -/
theorem of_sync (hclean : files.CleanUpTo xxh3 bound)
    (hread : readSlot xxh3 (some record) = .valid n payload)
    (holder : ∀ s' q, readSlot xxh3 (files slot.other).visible = .valid s' q → s' < n) :
    (files.rename slot record).sync.Anchored xxh3 slot n payload [] := by
  constructor
  · intro content hmem
    obtain rfl : content = some record := by simpa [SlotFiles.sync] using hmem
    exact .inl hread
  · intro content hmem
    obtain rfl : content = (files slot.other).visible := by simpa [SlotFiles.sync] using hmem
    obtain habsent | ⟨s', q, hother, -⟩ := hclean slot.other _ CrashCell.visible_mem_contents
    · exact .inl habsent
    · exact .inr (.inl ⟨s', q, hother, holder s' q hother⟩)

theorem visible_held (h : files.Anchored xxh3 slot s payload later) :
    ∃ s' q, readSlot xxh3 (files slot).visible = .valid s' q ∧ s ≤ s' ∧
      (q = payload ∨ ∃ attempt ∈ later, attempt.payload = q) := by
  obtain hread | ⟨s', attempt, hmem, hlt, hread⟩ := h.held _ CrashCell.visible_mem_contents
  · exact ⟨s, payload, hread, le_refl s, .inl rfl⟩
  · exact ⟨s', attempt.payload, hread, hlt.le, .inr ⟨attempt, hmem, rfl⟩⟩

end Anchored

end SlotFiles

/-! ## Which record a read takes -/

theorem combineSlots_valid {s : Nat} {q : Bytes} {other : SlotClass}
    (hother : other = .absent ∨ ∃ s' q', other = .valid s' q') {found : SuperblockContents}
    (hfound : combineSlots (.valid s q) other = found ∨ combineSlots other (.valid s q) = found) :
    found = .present q ∨ ∃ s' q', other = .valid s' q' ∧ s ≤ s' ∧ found = .present q' := by
  obtain rfl | ⟨s', q', rfl⟩ := hother
  · obtain rfl | rfl := hfound <;> exact .inl rfl
  · obtain rfl | rfl := hfound
    all_goals
      rw [combineSlots]
      split
    · exact .inl rfl
    · exact .inr ⟨s', q', rfl, by omega, rfl⟩
    · exact .inr ⟨s', q', rfl, by omega, rfl⟩
    · exact .inl rfl

namespace SlotFiles

variable {xxh3 : Bytes → UInt64} {files : SlotFiles} {slot : Slot} {s : Nat}
  {payload : Bytes} {later : List Attempt}

theorem readLatest_of_visible {q : Bytes}
    (hslot : readSlot xxh3 (files slot).visible = .valid s q)
    (hother : readSlot xxh3 (files slot.other).visible = .absent ∨
      ∃ s' q', readSlot xxh3 (files slot.other).visible = .valid s' q') :
    readLatest xxh3 files = .present q ∨
      ∃ s' q', readSlot xxh3 (files slot.other).visible = .valid s' q' ∧ s ≤ s' ∧
        readLatest xxh3 files = .present q' := by
  refine combineSlots_valid hother ?_
  cases slot with
  | a => exact .inl (by rw [← hslot]; rfl)
  | b => exact .inr (by rw [← hslot]; rfl)

theorem Anchored.readLatest (h : files.Anchored xxh3 slot s payload later) :
    ∃ q, readLatest xxh3 files = .present q ∧
      (q = payload ∨ ∃ attempt ∈ later, attempt.payload = q) := by
  obtain ⟨s₁, q₁, hslot, hle, hcand⟩ := h.visible_held
  have hother := h.older _ CrashCell.visible_mem_contents
  have hclean : readSlot xxh3 (files slot.other).visible = .absent ∨
      ∃ s' q', readSlot xxh3 (files slot.other).visible = .valid s' q' := by
    obtain habsent | ⟨s', q', hread, -⟩ | ⟨s', attempt, -, -, hread⟩ := hother
    · exact .inl habsent
    · exact .inr ⟨s', q', hread⟩
    · exact .inr ⟨s', attempt.payload, hread⟩
  obtain hpresent | ⟨s₂, q₂, hread₂, hnewer, hpresent⟩ := readLatest_of_visible hslot hclean
  · exact ⟨q₁, hpresent, hcand⟩
  · -- a record of the other slot that is as new as the anchor is a later attempt's
    refine ⟨q₂, hpresent, ?_⟩
    rw [hread₂] at hother
    obtain habsent | ⟨s', q', hread, hlt⟩ | ⟨s', attempt, hmem, -, hread⟩ := hother
    · exact nomatch habsent
    · cases hread; omega
    · rw [hread₂] at hread
      cases hread
      exact .inr ⟨attempt, hmem, rfl⟩

end SlotFiles

/-! ## Where a store aims -/

namespace PingPongSuperblock

variable (xxh3 : Bytes → UInt64)

/-- The store writes with a sequence above what the slot it will not touch shows. -/
structure Aimed (sb : PingPongSuperblock) (files : SlotFiles) (bound : Nat) : Prop where
  writable : sb.degraded = false
  fits : sb.nextSequence ≤ bound + 1
  newest : ∀ s q, readSlot xxh3 (files sb.nextSlot.other).visible = .valid s q → s < sb.nextSequence

variable {xxh3} {sb : PingPongSuperblock} {files : SlotFiles} {bound : Nat}

section

variable (hclean : files.CleanUpTo xxh3 bound)
include hclean

theorem read_of_clean (slot : Slot) :
    (readSlot xxh3 (files slot).visible).hasUnreadableSequence = false ∧
      (readSlot xxh3 (files slot).visible).sequenceOf.getD 0 ≤ bound := by
  obtain hr | ⟨s', q', hr, hs'⟩ := hclean slot _ CrashCell.visible_mem_contents
  · simp [hr, SlotClass.sequenceOf, SlotClass.hasUnreadableSequence]
  · simpa [hr, SlotClass.sequenceOf, SlotClass.hasUnreadableSequence] using hs'

theorem openWithLatest_newest (hbound : bound + 1 < 2 ^ 64) (slot : Slot) (s : Nat) (q : Bytes)
    (hread : readSlot xxh3 (files slot).visible = .valid s q) :
    s < (openWithLatest xxh3 files).1.nextSequence := by
  have hs : s ≤ max ((readSlot xxh3 (files .a).visible).sequenceOf.getD 0)
      ((readSlot xxh3 (files .b).visible).sequenceOf.getD 0) := by
    cases slot with
    | a => rw [hread]; exact le_max_left ..
    | b => rw [hread]; exact le_max_right ..
  have hmax := max_le (read_of_clean hclean .a).2 (read_of_clean hclean .b).2
  simp only [openWithLatest]
  rw [Nat.mod_eq_of_lt (by omega)]
  omega

theorem aimed_openWithLatest (hbound : bound + 1 < 2 ^ 64) :
    (openWithLatest xxh3 files).1.Aimed xxh3 files bound := by
  obtain ⟨ha, hle⟩ := read_of_clean hclean .a
  obtain ⟨hb, hle'⟩ := read_of_clean hclean .b
  constructor
  · simp [openWithLatest, ha, hb]
  · exact (Nat.mod_le _ _).trans (Nat.add_le_add_right (max_le hle hle') 1)
  · exact fun s q h => openWithLatest_newest hclean hbound _ s q h

end

/-- Nothing, a rename that no sync covers, or a completed replacement. -/
theorem write_cases (xxh3 : Bytes → UInt64) (files : SlotFiles)
    (hwritable : sb.degraded = false) (payload : Bytes) (stop : Option ReplaceStep) :
    (∃ e, sb.write xxh3 files payload stop = (.error e, sb, files)) ∨
    ∃ record, buildRecord xxh3 sb.nextSequence payload = .ok record ∧
      ((∃ e, sb.write xxh3 files payload stop =
          (.error e, sb, files.rename sb.nextSlot record)) ∨
        sb.write xxh3 files payload stop =
          (.ok (), { sb with nextSequence := (sb.nextSequence + 1) % 2 ^ 64
                             nextSlot := sb.nextSlot.other },
            (files.rename sb.nextSlot record).sync)) := by
  cases hrecord : buildRecord xxh3 sb.nextSequence payload with
  | error e => exact .inl ⟨e, by simp [write, hwritable, hrecord]⟩
  | ok record =>
    cases stop with
    | none => exact .inr ⟨record, rfl, .inr (by simp [write, hwritable, hrecord, atomicReplace])⟩
    | some step =>
      cases hstep : step.afterRename with
      | false => exact .inl ⟨.stopped step, by simp [write, hwritable, hrecord, atomicReplace, hstep]⟩
      | true =>
        exact .inr ⟨record, rfl, .inl ⟨.stopped step,
          by simp [write, hwritable, hrecord, atomicReplace, hstep]⟩⟩

/-- Opened over a slot that does not verify, it refuses every write, whatever the slots hold by
then. -/
theorem write_degraded (hdegraded : sb.degraded = true) (payload : Bytes)
    (stop : Option ReplaceStep) :
    sb.write xxh3 files payload stop = (.error (.invalidData
      "superblock slot holds bytes that do not verify; refusing to write over it"), sb, files) := by
  simp [write, hdegraded]

theorem degraded_openWithLatest {slot : Slot}
    (hslot : (readSlot xxh3 (files slot).visible).hasUnreadableSequence = true) :
    (openWithLatest xxh3 files).1.degraded = true := by
  cases slot with
  | a => simp [openWithLatest, hslot]
  | b => simp [openWithLatest, hslot]

theorem readLatest_unreadable {slot : Slot}
    (hslot : (readSlot xxh3 (files slot).visible).hasUnreadableSequence = true) :
    ∃ version, readLatest xxh3 files = .unreadable version := by
  unfold readLatest
  cases slot with
  | a =>
    cases ha : readSlot xxh3 (files .a).visible with
    | corrupt version =>
      cases version with
      | some v => exact ⟨some v, rfl⟩
      | none => rcases readSlot xxh3 (files .b).visible with _ | (_ | v) | _ <;> exact ⟨_, rfl⟩
    | absent => rw [ha] at hslot; exact nomatch hslot
    | valid s q => rw [ha] at hslot; exact nomatch hslot
  | b =>
    cases hb : readSlot xxh3 (files .b).visible with
    | corrupt version =>
      rcases readSlot xxh3 (files .a).visible with _ | (_ | v) | _ <;> cases version <;> exact ⟨_, rfl⟩
    | absent => rw [hb] at hslot; exact nomatch hslot
    | valid s q => rw [hb] at hslot; exact nomatch hslot

end PingPongSuperblock

/-! ## Runs -/

namespace SuperblockProcess

variable (xxh3 : Bytes → UInt64)

/-- `last` is the newest attempt of the process that returned `Ok`, `later` those after it. -/
def LastOk (p : SuperblockProcess) (later : List Attempt) (payload : Bytes) : Prop :=
  (∃ older, p.attempts = later ++ ⟨payload, .ok ()⟩ :: older) ∧ ∀ a ∈ later, a.result ≠ .ok ()

structure Tracks (p : SuperblockProcess) (bound : Nat) : Prop where
  clean : p.files.CleanUpTo xxh3 bound
  aimed : ∀ sb, p.store = some sb → sb.Aimed xxh3 p.files bound
  anchored : ∀ later payload, p.LastOk later payload → ∃ slot s,
    p.files.Anchored xxh3 slot s payload later ∧ ∀ sb, p.store = some sb → s < sb.nextSequence

variable {xxh3} {p p' : SuperblockProcess} {later : List Attempt} {payload q : Bytes} {bound : Nat}

theorem LastOk.of_error (p' : SuperblockProcess) {e : SuperblockError} (h : p.LastOk later payload)
    (hattempts : p.attempts = ⟨q, .error e⟩ :: p'.attempts) :
    ∃ rest, later = ⟨q, .error e⟩ :: rest ∧ p'.LastOk rest payload := by
  obtain ⟨⟨older, heq⟩, hlater⟩ := h
  rw [hattempts] at heq
  cases later with
  | nil => exact absurd (List.cons.inj heq).1 (by simp)
  | cons a rest =>
    obtain ⟨rfl, hrest⟩ := List.cons.inj heq
    exact ⟨rest, rfl, ⟨older, hrest⟩, fun a ha => hlater a (mem_cons_of_mem _ ha)⟩

theorem LastOk.of_ok (h : p.LastOk later payload) {older : List Attempt}
    (hattempts : p.attempts = ⟨q, .ok ()⟩ :: older) : later = [] ∧ payload = q := by
  obtain ⟨⟨older', heq⟩, hlater⟩ := h
  rw [hattempts] at heq
  cases later with
  | nil =>
    have hhead := (List.cons.inj heq).1
    exact ⟨rfl, (congrArg Attempt.payload hhead).symm⟩
  | cons a rest =>
    obtain rfl := (List.cons.inj heq).1
    exact absurd rfl (hlater _ mem_cons_self)

theorem Tracks.reopen (h : p.Tracks xxh3 bound) (hbound : bound + 1 < 2 ^ 64) :
    Tracks xxh3 { p with store := some (openWithLatest xxh3 p.files).1 }
      bound := by
  refine ⟨h.clean, ?_, ?_⟩
  · rintro sb ⟨rfl⟩
    exact aimed_openWithLatest h.clean hbound
  · intro later payload hlast
    obtain ⟨slot, s, hanchored, -⟩ := h.anchored later payload hlast
    obtain ⟨s', q, hread, hle, -⟩ := hanchored.visible_held
    refine ⟨slot, s, hanchored, ?_⟩
    rintro sb ⟨rfl⟩
    exact lt_of_le_of_lt hle (openWithLatest_newest h.clean hbound slot s' q hread)

theorem Tracks.crash (h : p.Tracks xxh3 bound) {left : Slot → Option Bytes}
    (hleft : left .a ∈ (p.files .a).contents ∧ left .b ∈ (p.files .b).contents) :
    Tracks xxh3 { p with files := .leave left, store := none } bound := by
  refine ⟨h.clean.leave hleft, fun _ => nofun, ?_⟩
  intro later payload hlast
  obtain ⟨slot, s, hanchored, -⟩ := h.anchored later payload hlast
  exact ⟨slot, s, hanchored.leave hleft, fun _ => nofun⟩

theorem Tracks.write {q : Bytes} {stop : Option ReplaceStep} (h : p.Tracks xxh3 bound)
    (hstep : p.step xxh3 (.write q stop) = some p') (hbound : bound + 2 < 2 ^ 64) :
    p'.Tracks xxh3 (bound + 1) := by
  obtain ⟨sb, hstore, rfl⟩ := Option.map_eq_some_iff.mp hstep
  obtain ⟨hwritable, hfits, hnewest⟩ := h.aimed sb hstore
  have hclean := h.clean.mono (Nat.le_succ bound)
  obtain ⟨e, hw⟩ | ⟨record, hrecord, hw⟩ := write_cases xxh3 p.files
    hwritable q stop
  · -- refused, or stopped before the rename
    rw [hw]
    refine ⟨hclean, ?_, ?_⟩
    · rintro sb' ⟨rfl⟩
      exact ⟨hwritable, hfits.trans (Nat.le_succ _), hnewest⟩
    · intro later payload hlast
      obtain ⟨rest, rfl, hrest⟩ := LastOk.of_error p hlast rfl
      obtain ⟨slot, s, hanchored, hlt⟩ := h.anchored rest payload hrest
      refine ⟨slot, s, hanchored.cons, ?_⟩
      rintro sb' ⟨rfl⟩
      exact hlt sb hstore
  · have hread := readSlot_buildRecord hrecord (by omega)
    have hrenamed := hclean.rename sb.nextSlot hread hfits
    obtain ⟨e, hw⟩ | hw := hw
    · -- stopped after the rename: the record may or may not survive
      rw [hw]
      refine ⟨hrenamed, ?_, ?_⟩
      · rintro sb' ⟨rfl⟩
        exact ⟨hwritable, hfits.trans (Nat.le_succ _), by simpa using hnewest⟩
      · intro later payload hlast
        obtain ⟨rest, rfl, hrest⟩ := LastOk.of_error p hlast rfl
        obtain ⟨slot, s, hanchored, hlt⟩ := h.anchored rest payload hrest
        refine ⟨slot, s, hanchored.rename hread (hlt sb hstore), ?_⟩
        rintro sb' ⟨rfl⟩
        exact hlt sb hstore
    · -- completed: the record is the new anchor
      have hnext : (sb.nextSequence + 1) % 2 ^ 64 = sb.nextSequence + 1 :=
        Nat.mod_eq_of_lt (by omega)
      rw [hw, hnext]
      refine ⟨hrenamed.sync, ?_, ?_⟩
      · rintro sb' ⟨rfl⟩
        refine ⟨hwritable, by simpa using hfits, ?_⟩
        intro s' q' hvisible
        have hshown : readSlot xxh3 (some record) = .valid s' q' := by
          simpa [SlotFiles.sync] using hvisible
        rw [hread] at hshown
        cases hshown
        exact Nat.lt_succ_self _
      · intro later payload hlast
        obtain ⟨rfl, rfl⟩ := LastOk.of_ok hlast rfl
        refine ⟨sb.nextSlot, sb.nextSequence, .of_sync h.clean hread hnewest, ?_⟩
        rintro sb' ⟨rfl⟩
        exact Nat.lt_succ_self _

/-- **One event** keeps the invariant; a write raises the bound by one. -/
theorem Tracks.step (h : p.Tracks xxh3 bound) {event : SuperblockEvent}
    (hstep : p.step xxh3 event = some p')
    (hbound : bound + event.isWrite.toNat + 1 < 2 ^ 64) :
    p'.Tracks xxh3 (bound + event.isWrite.toNat) := by
  cases event with
  | reopen =>
    cases hstep
    exact h.reopen hbound
  | write => exact h.write hstep hbound
  | crash left =>
    simp only [SuperblockProcess.step, Option.ite_none_right_eq_some, Option.some.injEq] at hstep
    obtain ⟨hleft, rfl⟩ := hstep
    exact h.crash hleft

theorem Tracks.run (h : p.Tracks xxh3 bound) {events : List SuperblockEvent}
    (hrun : p.run xxh3 events = some p')
    (hbound : bound + events.countP SuperblockEvent.isWrite + 1 < 2 ^ 64) :
    p'.Tracks xxh3 (bound + events.countP SuperblockEvent.isWrite) := by
  induction events generalizing p bound with
  | nil => cases hrun; exact h
  | cons event events ih =>
    obtain ⟨mid, hstep, hrest⟩ : ∃ mid, p.step xxh3 event = some mid ∧ mid.run xxh3 events = some p' := by
      simpa [SuperblockProcess.run, Option.bind_eq_some_iff] using hrun
    have hcount : (event :: events).countP SuperblockEvent.isWrite =
        event.isWrite.toNat + events.countP SuperblockEvent.isWrite := by
      rw [countP_cons, Nat.add_comm]
      cases event.isWrite <;> rfl
    rw [hcount, ← Nat.add_assoc] at hbound ⊢
    exact ih (h.step hstep (by omega)) hrest hbound

theorem Tracks.start {files : SlotFiles} (hclean : files.CleanUpTo xxh3 bound) :
    Tracks xxh3 ⟨files, none, []⟩ bound := by
  refine ⟨hclean, fun _ => nofun, ?_⟩
  rintro later payload ⟨⟨older, heq⟩, -⟩
  exact absurd heq.symm (by simp)

end SuperblockProcess

/-- **Crash atomicity.** From slots that are absent or verify, after any run of writes, reopens and
crashes whose sequence numbers fit 64 bits, a read finds the payload of the last write that returned
`Ok` or of one attempted after it. Whenever a slot holds bytes that do not verify, a read is
refused, and so is every write of a store opened over it. -/
theorem reads_last_ok_or_later (xxh3 : Bytes → UInt64) (files : SlotFiles) (bound : Nat)
    (hclean : files.CleanUpTo xxh3 bound) (events : List SuperblockEvent)
    (hbound : bound + events.countP SuperblockEvent.isWrite + 1 < 2 ^ 64) :
    (∀ p, SuperblockProcess.run xxh3 ⟨files, none, []⟩ events = some p →
      ∀ older later payload, p.attempts = later ++ ⟨payload, .ok ()⟩ :: older →
        (∀ a ∈ later, a.result ≠ .ok ()) →
        ∃ q, readLatest xxh3 p.files = .present q ∧
          (q = payload ∨ ∃ a ∈ later, a.payload = q)) ∧
    ∀ (damaged : SlotFiles) slot version,
      readSlot xxh3 (damaged slot).visible = .corrupt version →
      (∃ version', readLatest xxh3 damaged = .unreadable version') ∧
      ∀ (now : SlotFiles) payload stop,
        (openWithLatest xxh3 damaged).1.write xxh3 now payload stop =
          (.error (.invalidData
            "superblock slot holds bytes that do not verify; refusing to write over it"),
            (openWithLatest xxh3 damaged).1, now) := by
  constructor
  · intro p hrun older later payload hattempts hlater
    have htracks := (SuperblockProcess.Tracks.start hclean).run hrun hbound
    obtain ⟨slot, s, hanchored, -⟩ := htracks.anchored later payload ⟨⟨older, hattempts⟩, hlater⟩
    exact hanchored.readLatest
  · intro damaged slot version hcorrupt
    have hslot : (readSlot xxh3 (damaged slot).visible).hasUnreadableSequence = true := by
      rw [hcorrupt]; rfl
    exact ⟨readLatest_unreadable hslot, fun now payload stop =>
      write_degraded (degraded_openWithLatest hslot) payload stop⟩

/-- One write completed, one died before its directory sync, and the crash kept it. -/
theorem reads_last_ok_or_later_interrupted :
    ∃ p q, SuperblockProcess.run (fun _ => 7) ⟨fun _ => .fixed none, none, []⟩
        [.reopen, .write [1] none, .write [2] (some .syncDir),
          .crash fun
            | .a => (buildRecord (fun _ => 7) 1 [1]).toOption
            | .b => (buildRecord (fun _ => 7) 2 [2]).toOption,
          .reopen] = some p ∧
      readLatest (fun _ => 7) p.files = .present q ∧ (q = [1] ∨ q = [2]) := by
  have hclean : SlotFiles.CleanUpTo (fun _ => 7) (fun _ => .fixed none) 0 := by
    intro slot content hmem
    obtain rfl := mem_singleton.mp hmem
    exact .inl rfl
  generalize hrun : SuperblockProcess.run .. = final
  have hfinal : final.map SuperblockProcess.attempts =
      some [⟨[2], .error (.stopped .syncDir)⟩, ⟨[1], .ok ()⟩] := by
    subst hrun
    decide +kernel
  obtain ⟨p, rfl, hattempts⟩ := Option.map_eq_some_iff.mp hfinal
  obtain ⟨q, hread, hq⟩ := (reads_last_ok_or_later _ _ 0 hclean _ (by decide)).1 p hrun []
    [⟨[2], .error (.stopped .syncDir)⟩] [1] hattempts (by simp)
  exact ⟨p, q, rfl, hread, by simpa [eq_comm] using hq⟩

/-- A store opened while both slots verified does not look at them again: after slot A rotted, a
read is refused and the next write returns `Ok`, over the damaged slot. -/
theorem open_store_writes_over_damage :
    let fresh := (openWithLatest (fun _ => 7) fun _ => .fixed none).1
    let first := fresh.write (fun _ => 7) (fun _ => .fixed none) [1] none
    let second := first.2.1.write (fun _ => 7) first.2.2 [2] none
    let damaged : SlotFiles := Function.update second.2.2 .a (.fixed (some [0]))
    first.1 = .ok () ∧ second.1 = .ok () ∧
      readLatest (fun _ => 7) damaged = .unreadable none ∧
      (second.2.1.write (fun _ => 7) damaged [3] none).1 = .ok () := by
  decide +kernel

end Iggy
