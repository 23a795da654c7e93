import Iggy.Lib.Bytes
import Iggy.Lib.CrashCell
import Mathlib.Logic.Function.Basic

/-!
# The ping-pong superblock

Source: journal/src/superblock.rs:208-561.

A small payload is kept in two slot files of one directory. A write stamps the next sequence number
on a record and renames it over the slot that does not hold the newest one; a read takes the higher
sequence.

A slot file is a `CrashCell`: a rename is atomic, and only sure to survive a crash once a directory
sync completed. Every point where `atomic_replace` can stop is a `ReplaceStep`; a write that stops
there returned an error, was cancelled, or died in the crash that follows. The hash `XxHash3_64` is
a parameter.
-/

namespace Iggy

open List Lib

def superblockMagic : Nat := 0x53424C4B
def superblockVersion : Nat := 2

/-- Widths of magic, version, reserved, sequence, parent_checksum and payload_len. -/
def superblockFields : List Nat := [4, 2, 2, 8, 8, 4]

def superblockHeaderLen : Nat := 28
def superblockChecksumLen : Nat := 8
def minRecordLen : Nat := superblockHeaderLen + superblockChecksumLen
def maxPayloadLen : Nat := 64 * 1024
def maxRecordLen : Nat := minRecordLen + maxPayloadLen

/-- The calls `atomic_replace` makes, in order. -/
inductive ReplaceStep
  | createTmp | writeTmp | syncTmp | rename | openDir | syncDir
  deriving DecidableEq

def ReplaceStep.afterRename : ReplaceStep → Bool
  | .createTmp | .writeTmp | .syncTmp | .rename => false
  | .openDir | .syncDir => true

inductive SuperblockError
  | invalidData (message : String)
  | invalidInput (message : String)
  | stopped (step : ReplaceStep)
  deriving DecidableEq

inductive SlotClass
  | absent
  | corrupt (version : Option Nat)
  | valid (sequence : Nat) (payload : Bytes)
  deriving DecidableEq

inductive SuperblockContents
  | empty
  | present (payload : Bytes)
  | unreadable (version : Option Nat)
  deriving DecidableEq

section Record

def superblockHeader (sequence : Nat) (payload : Bytes) : Bytes :=
  packFields superblockFields [superblockMagic, superblockVersion, 0, sequence, 0, payload.length]

variable (xxh3 : Bytes → UInt64)

def buildRecord (sequence : Nat) (payload : Bytes) : Except SuperblockError Bytes :=
  if maxPayloadLen < payload.length then
    .error (.invalidInput s!"superblock payload is {payload.length} bytes, over the {maxPayloadLen}-byte ceiling")
  else if 2 ^ 32 ≤ payload.length then
    .error (.invalidInput "superblock payload too large")
  else
    let record := superblockHeader sequence payload ++ payload
    .ok (record ++ leBytes superblockChecksumLen (xxh3 record).toNat)

/-- Framing, version, payload length and checksum in one pass. -/
def classify (bytes : Bytes) : SlotClass :=
  if bytes.length < minRecordLen then .corrupt none
  else match unpackFields superblockFields bytes with
  | [magic, version, _, sequence, _, payloadLen] =>
    if magic ≠ superblockMagic then .corrupt none
    -- the framing past the version field is not known to this build
    else if version ≠ 1 ∧ version ≠ superblockVersion then .corrupt (some version)
    else if maxPayloadLen < payloadLen then .corrupt none
    else
      let checksumStart := superblockHeaderLen + payloadLen
      if bytes.length ≠ checksumStart + superblockChecksumLen then .corrupt none
      else if (xxh3 (bytes.take checksumStart)).toNat ≠ leNat (bytes.drop checksumStart) then
        .corrupt none
      else .valid sequence ((bytes.take checksumStart).drop superblockHeaderLen)
  | _ => .corrupt none

/-- A missing or empty file is absent, an oversized one is not read at all. -/
def readSlot : Option Bytes → SlotClass
  | none => .absent
  | some bytes =>
    if bytes.length = 0 then .absent
    else if maxRecordLen < bytes.length then .corrupt none
    else classify xxh3 bytes

variable {xxh3} {sequence : Nat} {payload record : Bytes}

theorem length_le_of_buildRecord (h : buildRecord xxh3 sequence payload = .ok record) :
    payload.length ≤ maxPayloadLen := by
  unfold buildRecord at h
  split_ifs at h with hle
  exact not_lt.mp hle

theorem fieldsFit_superblockHeader (hseq : sequence < 2 ^ 64)
    (hlen : payload.length ≤ maxPayloadLen) :
    FieldsFit superblockFields
      [superblockMagic, superblockVersion, 0, sequence, 0, payload.length] := by
  have hlen' : payload.length < 256 ^ 4 := lt_of_le_of_lt hlen (by decide)
  simp only [FieldsFit, superblockFields, forall₂_cons]
  exact ⟨by decide, by decide, by decide, hseq, by decide, hlen', .nil⟩

theorem buildRecord_eq (h : buildRecord xxh3 sequence payload = .ok record) :
    record = (superblockHeader sequence payload ++ payload) ++
      leBytes superblockChecksumLen (xxh3 (superblockHeader sequence payload ++ payload)).toNat := by
  unfold buildRecord at h
  split_ifs at h
  cases h; rfl

/-- **Round trip.** -/
theorem readSlot_buildRecord (h : buildRecord xxh3 sequence payload = .ok record)
    (hseq : sequence < 2 ^ 64) : readSlot xxh3 (some record) = .valid sequence payload := by
  have hlen := length_le_of_buildRecord h
  have hfit := fieldsFit_superblockHeader hseq hlen
  have hheader : (superblockHeader sequence payload).length = superblockHeaderLen :=
    length_packFields hfit
  have hbody : (superblockHeader sequence payload ++ payload).length =
      superblockHeaderLen + payload.length := by rw [length_append, hheader]
  obtain rfl := buildRecord_eq h
  have hfields : unpackFields superblockFields ((superblockHeader sequence payload ++ payload) ++
      leBytes superblockChecksumLen (xxh3 (superblockHeader sequence payload ++ payload)).toNat) =
      [superblockMagic, superblockVersion, 0, sequence, 0, payload.length] := by
    rw [append_assoc]
    exact unpackFields_packFields_append hfit _
  have hhash : (xxh3 (superblockHeader sequence payload ++ payload)).toNat < 256 ^ 8 :=
    UInt64.toNat_lt _
  have htotal : ((superblockHeader sequence payload ++ payload) ++ leBytes superblockChecksumLen
      (xxh3 (superblockHeader sequence payload ++ payload)).toNat).length =
      superblockHeaderLen + payload.length + superblockChecksumLen := by
    rw [length_append, hbody, length_leBytes]
  have hlower : minRecordLen ≤ superblockHeaderLen + payload.length + superblockChecksumLen := by
    unfold minRecordLen; omega
  have hupper : superblockHeaderLen + payload.length + superblockChecksumLen ≤ maxRecordLen := by
    unfold maxRecordLen minRecordLen; omega
  have hpos : 0 < minRecordLen := by decide
  simp only [readSlot, classify, hfields, htotal]
  rw [if_neg (by omega), if_neg (by omega), if_neg (by omega)]
  simp only [take_left' hbody, drop_left' hbody, superblockChecksumLen,
    leNat_leBytes _ _ hhash, drop_left' hheader]
  rw [if_neg (by simp), if_neg (by simp), if_neg (by omega), if_neg (by simp), if_neg (by simp)]

end Record

def combineSlots : SlotClass → SlotClass → SuperblockContents
  | .valid seqA payloadA, .valid seqB payloadB => .present (if seqA ≥ seqB then payloadA else payloadB)
  | .valid _ payload, .absent => .present payload
  | .absent, .valid _ payload => .present payload
  | .absent, .absent => .empty
  | .corrupt (some version), _ => .unreadable (some version)
  | _, .corrupt (some version) => .unreadable (some version)
  | _, _ => .unreadable none

def SlotClass.sequenceOf : SlotClass → Option Nat
  | .valid sequence _ => some sequence
  | .absent | .corrupt _ => none

def SlotClass.hasUnreadableSequence : SlotClass → Bool
  | .corrupt _ => true
  | .absent | .valid _ _ => false

inductive Slot
  | a | b
  deriving DecidableEq

def Slot.other : Slot → Slot
  | .a => .b
  | .b => .a

@[simp] theorem Slot.other_ne (slot : Slot) : slot.other ≠ slot := by cases slot <;> decide

@[simp] theorem Slot.other_other (slot : Slot) : slot.other.other = slot := by cases slot <;> rfl

theorem Slot.eq_or_eq_other (slot slot' : Slot) : slot' = slot ∨ slot' = slot.other := by
  cases slot <;> cases slot' <;> decide

/-! ## The directory -/

abbrev SlotFiles := Slot → CrashCell (Option Bytes)

namespace SlotFiles

def rename (files : SlotFiles) (slot : Slot) (record : Bytes) : SlotFiles :=
  Function.update files slot ((files slot).put (some record))

def sync (files : SlotFiles) : SlotFiles := fun slot => (files slot).sync

def leave (left : Slot → Option Bytes) : SlotFiles := fun slot => .fixed (left slot)

variable {files : SlotFiles} {slot : Slot} {record : Bytes}

@[simp] theorem rename_self : files.rename slot record slot = (files slot).put (some record) :=
  Function.update_self ..

@[simp] theorem rename_other : files.rename slot record slot.other = files slot.other :=
  Function.update_of_ne slot.other_ne ..

end SlotFiles

/-- Completed or stopped at one of its calls. -/
def atomicReplace (files : SlotFiles) (slot : Slot) (record : Bytes) :
    Option ReplaceStep → Except SuperblockError Unit × SlotFiles
  | some step =>
    (.error (.stopped step), if step.afterRename then files.rename slot record else files)
  | none => (.ok (), (files.rename slot record).sync)

/-! ## The store -/

structure PingPongSuperblock where
  nextSequence : Nat
  nextSlot : Slot
  degraded : Bool
  deriving DecidableEq

namespace PingPongSuperblock

variable (xxh3 : Bytes → UInt64)

def readLatest (files : SlotFiles) : SuperblockContents :=
  combineSlots (readSlot xxh3 (files .a).visible) (readSlot xxh3 (files .b).visible)

/-- A tie counts for A. -/
def aIsNewest : Option Nat → Option Nat → Bool
  | some a, some b => a ≥ b
  | some _, none => true
  | none, _ => false

def openWithLatest (files : SlotFiles) : PingPongSuperblock × SuperblockContents :=
  let slotA := readSlot xxh3 (files .a).visible
  let slotB := readSlot xxh3 (files .b).visible
  let latest := max (slotA.sequenceOf.getD 0) (slotB.sequenceOf.getD 0)
  ({ nextSequence := (latest + 1) % 2 ^ 64
     nextSlot := if aIsNewest slotA.sequenceOf slotB.sequenceOf then .b else .a
     degraded := slotA.hasUnreadableSequence || slotB.hasUnreadableSequence },
   combineSlots slotA slotB)

/-- The sequence and the aim only move once the replacement is complete. -/
def write (sb : PingPongSuperblock) (files : SlotFiles) (payload : Bytes)
    (stop : Option ReplaceStep) : Except SuperblockError Unit × PingPongSuperblock × SlotFiles :=
  if sb.degraded then
    (.error (.invalidData
      "superblock slot holds bytes that do not verify; refusing to write over it"), sb, files)
  else match buildRecord xxh3 sb.nextSequence payload with
  | .error e => (.error e, sb, files)
  | .ok record =>
    match atomicReplace files sb.nextSlot record stop with
    | (.error e, files) => (.error e, sb, files)
    | (.ok _, files) =>
      (.ok (), { sb with nextSequence := (sb.nextSequence + 1) % 2 ^ 64
                         nextSlot := sb.nextSlot.other }, files)

end PingPongSuperblock
end Iggy
