import Iggy.Lib.Cursor
import Iggy.Lib.SortedMap
import Mathlib.Data.List.Lex

/-!
# User headers of a message

Source: user_headers.rs:83-283, 640-730; wire_conversions.rs:764-868; iggy_message.rs:238-257.

Typed keys and values in a sorted map, written as a run of fields: a kind, a length, the bytes. The
reader checks the run's structure first and reads the entries after; a block whose structure is
wrong is folded into "no headers", a field whose kind or size is wrong is an error. Every map whose
fields are in range is read back (`wireCodec_inverse`).
-/

namespace Iggy.Kafka

open List Lib

inductive HeaderKind
  | raw | string | bool | int8 | int16 | int32 | int64 | int128
  | uint8 | uint16 | uint32 | uint64 | uint128 | float32 | float64
  deriving DecidableEq

namespace HeaderKind

def asCode : HeaderKind → UInt8
  | raw => 1 | string => 2 | bool => 3 | int8 => 4 | int16 => 5 | int32 => 6 | int64 => 7
  | int128 => 8 | uint8 => 9 | uint16 => 10 | uint32 => 11 | uint64 => 12 | uint128 => 13
  | float32 => 14 | float64 => 15

def fromCode (code : UInt8) : Option HeaderKind :=
  match code with
  | 1 => some raw | 2 => some string | 3 => some bool | 4 => some int8 | 5 => some int16
  | 6 => some int32 | 7 => some int64 | 8 => some int128 | 9 => some uint8 | 10 => some uint16
  | 11 => some uint32 | 12 => some uint64 | 13 => some uint128 | 14 => some float32
  | 15 => some float64 | _ => none

def expectedSize : HeaderKind → Option Nat
  | raw | string => none
  | bool | int8 | uint8 => some 1
  | int16 | uint16 => some 2
  | int32 | uint32 | float32 => some 4
  | int64 | uint64 | float64 => some 8
  | int128 | uint128 => some 16

@[simp] theorem fromCode_asCode (kind : HeaderKind) : fromCode kind.asCode = some kind := by
  cases kind <;> rfl

theorem asCode_injective : Function.Injective asCode := by
  intro a b h
  simpa using congrArg fromCode h

end HeaderKind

def utf8Bytes (text : String) : Bytes := text.toByteArray.data.toList

variable (bytes : Bytes)

def fromUtf8 : Option String := String.fromUTF8? ⟨bytes.toArray⟩

@[simp] theorem fromUtf8_utf8Bytes (text : String) : fromUtf8 (utf8Bytes text) = some text := by
  have hbytes : (⟨(utf8Bytes text).toArray⟩ : ByteArray) = text.toByteArray := by
    simp [utf8Bytes]
  rw [fromUtf8, hbytes]
  exact dif_pos text.isValidUTF8

theorem utf8Bytes_injective : Function.Injective utf8Bytes := by
  intro a b h
  have := congrArg fromUtf8 h
  simpa using this

@[simp] theorem utf8Bytes_append (a b : String) : utf8Bytes
    (a ++ b) = utf8Bytes a ++ utf8Bytes b := by
  simp [utf8Bytes]

/-- `HeaderKey` and `HeaderValue`: bytes with the kind of what they stand for. -/
structure HeaderField where
  kind : HeaderKind
  value : Bytes

namespace HeaderField

/-- Fields are ordered by kind, then by their bytes. -/
def orderKey (field : HeaderField) : List Nat :=
  field.kind.asCode.toNat :: field.value.map (·.toNat)

theorem orderKey_injective : Function.Injective orderKey := by
  rintro ⟨kind, value⟩ ⟨kind', value'⟩ h
  simp only [orderKey, List.cons.injEq] at h
  have hvalue := map_injective_iff.mpr (fun a b => UInt8.toNat_inj.mp) h.2
  rw [HeaderKind.asCode_injective (UInt8.toNat_inj.mp h.1), hvalue]

instance : LinearOrder HeaderField := LinearOrder.lift' orderKey orderKey_injective

end HeaderField

abbrev UserHeaders := SortedMap HeaderField HeaderField

inductive MessageError
  | invalidMessagePayloadLength
  | tooBigMessagePayload
  | tooBigUserHeaders
  | invalidHeaderKind (code : UInt8)
  | invalidHeaderKey
  | invalidHeaderValue
  deriving DecidableEq

/-! ## Writing and reading a header block -/

def maxFieldLength : Nat := 255

def putHeaderField (field : HeaderField) : Bytes :=
  field.kind.asCode :: (leBytes 4 field.value.length ++ field.value)

def userHeadersToWire (headers : UserHeaders) : Bytes :=
  headers.entries.flatMap fun (key, value) => putHeaderField key ++ putHeaderField value

/-- One round of the loop of `validate_user_headers`: what is left behind a well-formed field. -/
def validateField : Option Bytes :=
  match bytes with
  | [] => none
  | kind :: rest =>
    if kind = 0 ∨ rest.length < 4 then none
    else
      let length := leNat (rest.take 4)
      if length = 0 ∨ maxFieldLength < length ∨ (rest.drop 4).length < length then none
      else some ((rest.drop 4).drop length)

/-- The number of fields; every round takes at least one byte. -/
def validateFields : Nat → Bytes → Option Nat
  | _, [] => some 0
  | 0, _ :: _ => none
  | fuel + 1, byte :: bytes => do
    let rest ← validateField (byte :: bytes)
    let count ← validateFields fuel rest
    return count + 1

/-- The number of pairs. What a refused block is refused for is only logged. -/
def validateUserHeaders : Option Nat := do
  let count ← validateFields bytes.length bytes
  if count % 2 ≠ 0 then none else return count / 2

/-- With the bytes behind it. -/
def sliceField : UInt8 × Bytes × Bytes :=
  let length := leNat ((bytes.drop 1).take 4)
  (bytes.headD 0, (bytes.drop 5).take length, (bytes.drop 5).drop length)

/-- `WireUserHeaderEntry`: kind and bytes of a key and of its value. -/
structure WireUserHeaderEntry where
  keyKind : UInt8
  key : Bytes
  valueKind : UInt8
  value : Bytes
  deriving DecidableEq

/-- `WireUserHeaderIterator`. -/
def userHeaderEntries : Nat → Bytes → List WireUserHeaderEntry
  | _, [] => []
  | 0, _ :: _ => []
  | fuel + 1, byte :: bytes =>
    let (keyKind, key, rest) := sliceField (byte :: bytes)
    let (valueKind, value, rest) := sliceField rest
    { keyKind, key, valueKind, value } :: userHeaderEntries fuel rest

/-- The kind has a size of its own and this is not it. -/
def HeaderKind.wrongSize (kind : HeaderKind) (length : Nat) : Bool :=
  kind.expectedSize.any (· ≠ length)

def addEntry (headers : UserHeaders) (entry : WireUserHeaderEntry) :
    Except MessageError UserHeaders :=
  match HeaderKind.fromCode entry.keyKind, HeaderKind.fromCode entry.valueKind with
  | none, _ => .error (.invalidHeaderKind entry.keyKind)
  | some _, none => .error (.invalidHeaderKind entry.valueKind)
  | some keyKind, some valueKind =>
    if keyKind.wrongSize entry.key.length then .error .invalidHeaderKey
    else if valueKind.wrongSize entry.value.length then .error .invalidHeaderValue
    else .ok (headers.insert ⟨keyKind, entry.key⟩ ⟨valueKind, entry.value⟩)

def headersFromValidatedSlice : Except MessageError UserHeaders :=
  (userHeaderEntries bytes.length bytes).foldlM addEntry SortedMap.empty

/-- The body of `user_headers_map`. -/
def userHeadersFromBytes : Except MessageError (Option UserHeaders) :=
  match validateUserHeaders bytes with
  | none => .ok none
  | some _ => (headersFromValidatedSlice bytes).map some

/-! ## A codec of header blocks -/

/-- A way to write header maps, and to read blocks that may hold none. -/
structure HeaderCodec where
  encode : UserHeaders → Bytes
  decode : Bytes → Except MessageError (Option UserHeaders)

def wireCodec : HeaderCodec := ⟨userHeadersToWire, userHeadersFromBytes⟩

/-- What the constructors of `HeaderKey` and `HeaderValue` ask of a field. -/
structure HeaderField.InRange (field : HeaderField) : Prop where
  pos : 0 < field.value.length
  le : field.value.length ≤ maxFieldLength
  size : ∀ expected ∈ field.kind.expectedSize, field.value.length = expected

def AllInRange (headers : UserHeaders) : Prop :=
  ∀ key value, headers.get? key = some value → key.InRange ∧ value.InRange

/-- The codec reads back every map it can be given. -/
def HeaderCodec.Inverse (codec : HeaderCodec) : Prop :=
  ∀ headers, AllInRange headers → codec.decode (codec.encode headers) = .ok (some headers)

section Fields

variable {field : HeaderField} (h : field.InRange)
include h

theorem leNat_fieldLength : leNat (leBytes 4 field.value.length) = field.value.length := by
  have hle : field.value.length ≤ 255 := h.le
  exact leNat_leBytes 4 _ (by omega)

theorem validateField_append (rest : Bytes) :
    validateField (putHeaderField field ++ rest) = some rest := by
  have hkind : field.kind.asCode ≠ 0 := by cases field.kind <;> decide
  have hpos := h.pos
  have hle := h.le
  simp only [putHeaderField, cons_append, append_assoc, validateField,
    take_left' (length_leBytes 4 field.value.length),
    drop_left' (length_leBytes 4 field.value.length), leNat_fieldLength h, hkind, false_or,
    drop_left]
  rw [if_neg (by simp), if_neg (by simp only [length_append]; omega)]

theorem sliceField_append (rest : Bytes) :
    sliceField (putHeaderField field ++ rest) = (field.kind.asCode, field.value, rest) := by
  simp only [putHeaderField, cons_append, append_assoc, sliceField, headD_cons,
    drop_succ_cons, drop_zero, take_left' (length_leBytes 4 field.value.length),
    drop_left' (length_leBytes 4 field.value.length), leNat_fieldLength h, take_left,
    drop_left]

end Fields

theorem exists_cons_putHeaderField (field : HeaderField) (rest : Bytes) :
    ∃ byte bytes, putHeaderField field ++ rest = byte :: bytes := ⟨_, _, rfl⟩

theorem length_le_flatMap (fields : List HeaderField) :
    fields.length ≤ (fields.flatMap putHeaderField).length := by
  induction fields with
  | nil => exact Nat.zero_le _
  | cons field fields ih =>
    rw [flatMap_cons, length_append, putHeaderField, length_cons, length_cons]
    omega

theorem validateFields_flatMap {fields : List HeaderField} {fuel : Nat}
    (h : ∀ field ∈ fields, field.InRange) (hfuel : fields.length ≤ fuel) :
    validateFields fuel (fields.flatMap putHeaderField) = some fields.length := by
  induction fields generalizing fuel with
  | nil => cases fuel <;> rfl
  | cons field fields ih =>
    obtain ⟨fuel, rfl⟩ : ∃ k, fuel = k + 1 := Nat.exists_eq_add_one.mpr (by simp at hfuel; omega)
    have hstep := validateField_append (h field mem_cons_self) (fields.flatMap putHeaderField)
    have hrest := ih (fun x hx => h x (mem_cons_of_mem _ hx)) (Nat.le_of_succ_le_succ hfuel)
    obtain ⟨byte, bytes, hcons⟩ :=
      exists_cons_putHeaderField field (fields.flatMap putHeaderField)
    rw [flatMap_cons, hcons, validateFields, ← hcons, hstep]
    simp [hrest]

def wireEntry (entry : HeaderField × HeaderField) : WireUserHeaderEntry :=
  { keyKind := entry.1.kind.asCode, key := entry.1.value,
    valueKind := entry.2.kind.asCode, value := entry.2.value }

variable {entries : List (HeaderField × HeaderField)}

theorem userHeaderEntries_flatMap {fuel : Nat}
    (h : ∀ entry ∈ entries, entry.1.InRange ∧ entry.2.InRange) (hfuel : entries.length ≤ fuel) :
    userHeaderEntries fuel
        (entries.flatMap fun (key, value) => putHeaderField key ++ putHeaderField value) =
      entries.map wireEntry := by
  induction entries generalizing fuel with
  | nil => cases fuel <;> rfl
  | cons entry entries ih =>
    obtain ⟨fuel, rfl⟩ : ∃ k, fuel = k + 1 := Nat.exists_eq_add_one.mpr (by simp at hfuel; omega)
    obtain ⟨hkey, hvalue⟩ := h entry mem_cons_self
    have hrest := ih (fun x hx => h x (mem_cons_of_mem _ hx)) (Nat.le_of_succ_le_succ hfuel)
    rw [flatMap_cons, append_assoc]
    obtain ⟨byte, bytes, hcons⟩ := exists_cons_putHeaderField entry.1 (putHeaderField entry.2 ++
      entries.flatMap fun (key, value) => putHeaderField key ++ putHeaderField value)
    rw [hcons, userHeaderEntries, ← hcons, sliceField_append hkey]
    simp only [sliceField_append hvalue, hrest, map_cons, wireEntry]

theorem addEntry_wireEntry (headers : UserHeaders) {entry : HeaderField × HeaderField}
    (h : entry.1.InRange ∧ entry.2.InRange) :
    addEntry headers (wireEntry entry) = .ok (headers.insert entry.1 entry.2) := by
  have hfits : ∀ field : HeaderField, field.InRange →
      field.kind.wrongSize field.value.length = false := by
    intro field hfield
    unfold HeaderKind.wrongSize
    cases hsize : field.kind.expectedSize with
    | none => rfl
    | some expected => simp [hfield.size expected hsize]
  simp only [addEntry, wireEntry, HeaderKind.fromCode_asCode, hfits _ h.1, hfits _ h.2,
    Bool.false_eq_true, if_false]

theorem foldlM_addEntry {headers : UserHeaders}
    (h : ∀ entry ∈ entries, entry.1.InRange ∧ entry.2.InRange) :
    (entries.map wireEntry).foldlM addEntry headers =
      .ok (entries.foldl (fun headers entry => headers.insert entry.1 entry.2) headers) := by
  induction entries generalizing headers with
  | nil => rfl
  | cons entry entries ih =>
    rw [map_cons, foldlM_cons, addEntry_wireEntry headers (h entry mem_cons_self),
      ok_bind, ih fun x hx => h x (mem_cons_of_mem _ hx), foldl_cons]

/-- **The codec in use is inverse to itself.** -/
theorem wireCodec_inverse : wireCodec.Inverse := by
  intro headers hrange
  have hentries : ∀ entry ∈ headers.entries, entry.1.InRange ∧ entry.2.InRange :=
    fun entry hentry => hrange entry.1 entry.2 (SortedMap.mem_entries.mp hentry)
  have hfields : ∀ field ∈ headers.entries.flatMap fun entry => [entry.1, entry.2],
      field.InRange := by
    intro field hfield
    obtain ⟨entry, hentry, hfield⟩ := mem_flatMap.mp hfield
    rcases mem_pair.mp hfield with rfl | rfl
    · exact (hentries entry hentry).1
    · exact (hentries entry hentry).2
  have hwire : userHeadersToWire headers =
      (headers.entries.flatMap fun entry => [entry.1, entry.2]).flatMap putHeaderField := by
    simp [userHeadersToWire, flatMap_assoc]
  have hcount : (headers.entries.flatMap fun entry => [entry.1, entry.2]).length =
      2 * headers.entries.length := by
    simp [length_flatMap, Nat.mul_comm]
  have hlong : 2 * headers.entries.length ≤ (userHeadersToWire headers).length := by
    rw [← hcount, hwire]
    exact length_le_flatMap _
  have hvalid : validateUserHeaders (userHeadersToWire headers) = some headers.entries.length := by
    rw [validateUserHeaders, hwire,
      validateFields_flatMap hfields (by rw [hcount, ← hwire]; exact hlong)]
    simp [hcount]
  have hread : headersFromValidatedSlice (userHeadersToWire headers) = .ok headers := by
    rw [headersFromValidatedSlice, userHeadersToWire, userHeaderEntries_flatMap hentries,
      foldlM_addEntry hentries]
    · exact congrArg Except.ok (SortedMap.ofList_entries headers)
    · have := hlong
      rw [userHeadersToWire] at this
      omega
  simp only [wireCodec, userHeadersFromBytes, hvalid, hread]
  rfl

/-! ## What is accepted is in range -/

theorem sliceField_of_validateField {bytes rest : Bytes} (h : validateField bytes = some rest) :
    (sliceField bytes).2.2 = rest ∧ 0 < (sliceField bytes).2.1.length ∧
      (sliceField bytes).2.1.length ≤ maxFieldLength := by
  cases bytes with
  | nil => cases h
  | cons kind bytes =>
    simp only [validateField] at h
    split_ifs at h with hshort hlength
    cases h
    simp only [length_drop] at hlength
    simp only [sliceField, drop_succ_cons, drop_zero, length_take, length_drop, true_and]
    omega

theorem validateFields_eq_succ {fuel count : Nat} {bytes : Bytes}
    (h : validateFields fuel bytes = some (count + 1)) :
    ∃ byte tail fuel' rest, bytes = byte :: tail ∧ validateField bytes = some rest ∧
      validateFields fuel' rest = some count := by
  cases bytes with
  | nil => cases fuel <;> cases h
  | cons byte tail =>
    cases fuel with
    | zero => cases h
    | succ fuel =>
      simp only [validateFields, Option.bind_eq_bind, Option.bind_eq_some_iff, Option.pure_def,
        Option.some.injEq, Nat.add_right_cancel_iff] at h
      obtain ⟨rest, hfield, _, hrest, rfl⟩ := h
      exact ⟨byte, tail, fuel, rest, rfl, hfield, hrest⟩

theorem bounds_userHeaderEntries {count fuel fuel' : Nat} {bytes : Bytes}
    (h : validateFields fuel bytes = some (2 * count)) {entry : WireUserHeaderEntry}
    (hmem : entry ∈ userHeaderEntries fuel' bytes) :
    (0 < entry.key.length ∧ entry.key.length ≤ maxFieldLength) ∧
      0 < entry.value.length ∧ entry.value.length ≤ maxFieldLength := by
  induction count generalizing fuel fuel' bytes with
  | zero =>
    cases bytes with
    | nil => simp [userHeaderEntries] at hmem
    | cons byte bytes => cases fuel <;> simp [validateFields, Option.bind_eq_some_iff] at h
  | succ count ih =>
    obtain ⟨byte, tail, fuel₁, rest, rfl, hkey, h⟩ := validateFields_eq_succ h
    obtain ⟨_, _, fuel₂, rest', -, hvalue, h⟩ := validateFields_eq_succ h
    obtain ⟨hrest, hkey⟩ := sliceField_of_validateField hkey
    obtain ⟨hrest', hvalue⟩ := sliceField_of_validateField hvalue
    cases fuel' with
    | zero => cases hmem
    | succ fuel' =>
      simp only [userHeaderEntries, hrest, hrest', mem_cons] at hmem
      obtain rfl | hmem := hmem
      · exact ⟨hkey, hvalue⟩
      · exact ih h hmem

theorem inRange_of_not_wrongSize {kind : HeaderKind} {value : Bytes}
    (h : 0 < value.length ∧ value.length ≤ maxFieldLength)
    (hsize : ¬kind.wrongSize value.length = true) : HeaderField.InRange ⟨kind, value⟩ := by
  refine ⟨h.1, h.2, fun expected hexpected => ?_⟩
  rw [HeaderKind.wrongSize, show kind.expectedSize = some expected from hexpected] at hsize
  exact not_not.mp fun hne => hsize (decide_eq_true (Ne.symm hne))

/-- **What is accepted is in range.** Whatever block the reader takes for headers, every key and
value of the map is one that its constructor accepts, and the map is read back from the block it is
written to. -/
theorem userHeadersFromBytes_inRange {bytes : Bytes} {headers : UserHeaders}
    (h : userHeadersFromBytes bytes = .ok (some headers)) :
    AllInRange headers ∧ userHeadersFromBytes (userHeadersToWire headers) = .ok (some headers) := by
  suffices hrange : AllInRange headers from ⟨hrange, wireCodec_inverse headers hrange⟩
  unfold userHeadersFromBytes at h
  split at h
  · cases h
  rename_i pairs hvalid
  obtain ⟨_, hread, heq⟩ := map_eq_ok.mp h
  cases heq
  simp only [validateUserHeaders, Option.bind_eq_bind, Option.bind_eq_some_iff] at hvalid
  obtain ⟨count, hcount, hpairs⟩ := hvalid
  split_ifs at hpairs with heven
  rw [show count = 2 * (count / 2) by omega] at hcount
  refine foldlM_invariant AllInRange ?_ (fun _ _ hnone => by cases hnone) hread
  intro read read' entry hmem hrange hadd
  obtain ⟨hkey, hvalue⟩ := bounds_userHeaderEntries hcount hmem
  unfold addEntry at hadd
  split at hadd
  · cases hadd
  · cases hadd
  split_ifs at hadd with hkeySize hvalueSize
  cases hadd
  intro key value hget
  rw [SortedMap.get?_insert] at hget
  split_ifs at hget with hsame
  · cases hget
    rw [hsame]
    exact ⟨inRange_of_not_wrongSize hkey hkeySize, inRange_of_not_wrongSize hvalue hvalueSize⟩
  · exact hrange key value hget

/-- The text keys `A` and `B` with the byte 7 and the text `Hi`. -/
def twoHeaders : Bytes :=
  [2, 1, 0, 0, 0, 65, 9, 1, 0, 0, 0, 7, 2, 1, 0, 0, 0, 66, 2, 2, 0, 0, 0, 72, 105]

theorem two_headers_inRange : ∃ headers, userHeadersFromBytes twoHeaders = .ok (some headers) ∧
    AllInRange headers ∧ userHeadersFromBytes (userHeadersToWire headers) = .ok (some headers) := by
  have hread : ∃ headers, userHeadersFromBytes twoHeaders = .ok (some headers) := ⟨_, rfl⟩
  exact hread.imp fun _ h => ⟨h, userHeadersFromBytes_inRange h⟩

end Iggy.Kafka
