import Iggy.Kafka.Records

/-!
# Records come back as they were written

`from_iggy` reads back what `to_iggy` wrote, in whichever of the three shapes. The envelope is a
sequential format; in the native shape a name under `kafka.h.` and the gateway's own names cannot
meet; the plain shape is told apart by its one header block, because the header codec is injective
on fields in range.
-/

namespace Iggy.Kafka

open List Lib TimestampWindow Option SortedMap Prod

/-! ## The envelope -/

theorem takeEnvelope_append {needed : Nat} {head : Bytes} (h : head.length = needed)
    (rest : Bytes) : takeEnvelope needed (head ++ rest) = .ok (head, rest) :=
  takeBytes_append _ h rest

theorem leNat_putLength {n : Nat} (h : n < 2 ^ 32) : leNat (putLength n) = n := by
  rw [putLength, Nat.min_eq_left (by omega), leNat_leBytes]
  exact h

@[simp] theorem length_putLength (n : Nat) : (putLength n).length = 4 := length_leBytes ..

theorem takeField_append {bytes : Bytes} (h : bytes.length < 2 ^ 32) (rest : Bytes) :
    takeField (putLength bytes.length ++ bytes ++ rest) = .ok (bytes, rest) := by
  rw [takeField, append_assoc, takeEnvelope_append (length_putLength _), ok_bind]
  simp only [leNat_putLength h]
  exact takeEnvelope_append rfl rest

theorem takeField_putField {field : Option Bytes} (h : fieldLength field < 2 ^ 32)
    (rest : Bytes) : takeField (putField field ++ rest) = .ok (field.getD [], rest) := by
  refine takeField_append ?_ rest
  cases field with
  | none => decide
  | some bytes => exact h

variable {headers : List (String × Option Bytes)} {name : String}

theorem insertHeader_of_not_mem {value : Option Bytes} (h : name ∉ headers.map fst) :
    insertHeader headers name value = (headers ++ [(name, value)], none) := by
  have hlookup : headers.lookup name = none := by
    rw [lookup_eq_none_iff]
    intro header hheader
    have : name ≠ header.1 := fun heq => h (heq ▸ mem_map_of_mem hheader)
    simpa using this
  simp [insertHeader, hlookup]

def HeaderFits (header : String × Option Bytes) : Prop :=
  (utf8Bytes header.1).length < 2 ^ 32 ∧ fieldLength header.2 < 2 ^ 32

variable {acc : List (String × Option Bytes)}

theorem takeHeaders_flatMap (fits : ∀ header ∈ headers, HeaderFits header)
    (distinct : ((acc ++ headers).map fst).Nodup) (rest : Bytes) :
    takeHeaders headers.length acc (headers.flatMap putHeader ++ rest) =
      .ok (acc ++ headers, rest) := by
  induction headers generalizing acc with
  | nil => simp [takeHeaders]
  | cons header headers ih =>
    obtain ⟨name, value⟩ := header
    obtain ⟨hname, hvalue⟩ := fits (name, value) mem_cons_self
    have hfresh : name ∉ acc.map fst := by
      simp only [map_append, map_cons, nodup_append] at distinct
      intro hmem
      exact distinct.2.2 name hmem name mem_cons_self rfl
    have hpresent : (if [if value.isSome then (1 : UInt8) else 0] ≠ [0] then some (value.getD [])
        else none) = value := by
      cases value <;> simp
    rw [length_cons, flatMap_cons, takeHeaders]
    simp only [putHeader, append_assoc]
    rw [← append_assoc (putLength _), takeField_append hname, ok_bind]
    simp only [fromUtf8_utf8Bytes]
    rw [takeEnvelope_append length_singleton, ok_bind, takeField_putField hvalue, ok_bind]
    simp only [hpresent, insertHeader_of_not_mem hfresh]
    rw [ih (fun x hx => fits x (mem_cons_of_mem _ hx)) (by simpa using distinct)]
    simp

theorem length_putField (field : Option Bytes) :
    (putField field).length = 4 + fieldLength field := by
  cases field <;> simp [putField, fieldLength]

theorem length_putHeader (header : String × Option Bytes) :
    (putHeader header).length =
      envelopeHeaderOverhead + (utf8Bytes header.1).length + fieldLength header.2 := by
  simp only [putHeader, length_append, length_putLength, length_singleton, length_putField,
    envelopeHeaderOverhead]
  omega

/-- **The size is exact.** -/
theorem length_encodeEnvelope (record : Record) :
    (encodeEnvelope record).length = envelopeSize record := by
  have hheaders : (record.headers.flatMap putHeader).length =
      (record.headers.map fun header =>
        envelopeHeaderOverhead + (utf8Bytes header.1).length + fieldLength header.2).sum := by
    rw [length_flatMap]
    exact congrArg List.sum (map_congr_left fun header _ => length_putHeader header)
  simp only [encodeEnvelope, envelopeSize, envelopeOverhead, length_append,
    length_singleton, length_putField, length_putLength, hheaders]
  omega

theorem overhead_le_length (headers : List (String × Option Bytes)) :
    headers.length * envelopeHeaderOverhead ≤ (headers.flatMap putHeader).length := by
  induction headers with
  | nil => simp
  | cons header headers ih =>
    rw [flatMap_cons, length_append, length_putHeader, length_cons, Nat.add_mul]
    omega

variable {record : Record}

theorem headerFits_of_mem (h : envelopeSize record < 2 ^ 32) {header : String × Option Bytes}
    (hmem : header ∈ record.headers) : HeaderFits header := by
  obtain ⟨before, after, hsplit⟩ := List.append_of_mem hmem
  simp only [envelopeSize, hsplit, map_append, map_cons, sum_append, sum_cons] at h
  constructor <;> omega

theorem flags_eq_zero (key value : Bool) :
    (((if key then flagKey else 0) ||| (if value then flagValue else 0)) &&& flagKey = 0 ↔
      key = false) ∧
    (((if key then flagKey else 0) ||| (if value then flagValue else 0)) &&& flagValue = 0 ↔
      value = false) := by
  cases key <;> cases value <;> decide

/-- **Decoding inverts encoding.** -/
theorem decodeEnvelope_encodeEnvelope (record : Record)
    (distinct : (record.headers.map fst).Nodup) (h : envelopeSize record < 2 ^ 32) :
    decodeEnvelope [envelopeVersion] (encodeEnvelope record) =
      .ok (record.key, record.value, record.headers) := by
  have hcount : record.headers.length < 2 ^ 32 := by
    have hle := overhead_le_length record.headers
    have hlength := length_encodeEnvelope record
    simp only [encodeEnvelope, length_append, envelopeHeaderOverhead] at hle hlength
    omega
  obtain ⟨hkey, hvalue⟩ : fieldLength record.key < 2 ^ 32 ∧ fieldLength record.value < 2 ^ 32 := by
    simp only [envelopeSize] at h
    omega
  have hheaders : takeHeaders record.headers.length [] (record.headers.flatMap putHeader) =
      .ok (record.headers, []) := by
    simpa using @takeHeaders_flatMap record.headers []
      (fun header hmem => headerFits_of_mem h hmem) (by simpa using distinct) []
  have hneeded := overhead_le_length record.headers
  simp only [decodeEnvelope, encodeEnvelope, head?_cons, ne_eq, not_true_eq_false, if_false,
    append_assoc]
  rw [takeEnvelope_append length_singleton, ok_bind]
  simp only
  rw [takeField_putField hkey, ok_bind]
  simp only
  rw [takeField_putField hvalue, ok_bind]
  simp only
  rw [takeEnvelope_append (length_putLength _), ok_bind]
  simp only [leNat_putLength hcount, if_neg (not_lt.mpr hneeded)]
  rw [hheaders, ok_bind]
  simp only [headD_cons, flags_eq_zero]
  cases record.key <;> cases record.value <;> rfl

/-! ## Timestamps -/

theorem asInt64_int64Value {n : Int} (hlow : -2 ^ 63 ≤ n) (hhigh : n < 2 ^ 63) :
    (int64Value n).asInt64 = some n := by
  have hfits : (n % 2 ^ 64).toNat < 256 ^ 8 := by omega
  have hvalue : (leNat (int64Value n).value : Int) = n % 2 ^ 64 := by
    rw [int64Value, leNat_leBytes _ _ hfits]
    omega
  simp only [HeaderField.asInt64, hvalue]
  simp only [int64Value, length_leBytes, ne_eq, not_true_eq_false, or_false, if_false,
    Option.some.injEq]
  split <;> omega

/-- Its own, or the server's when it has none. -/
def expectedTimestamp (millis : Int) (serverMicros : Nat) : Int :=
  if millis = noTimestamp then (serverMicros / 1000 : Nat) else millis

variable {millis : Int}

theorem timestampIn_eq_ok {native : Nat} (h : timestampIn millis = .ok native) :
    (millis = noTimestamp ∧ native = 0) ∨
      (0 ≤ millis ∧ millis * 1000 < 2 ^ 63 ∧ (native : Int) = millis * 1000) := by
  unfold timestampIn at h
  split_ifs at h with hnone hrange
  · exact .inl ⟨hnone, (Except.ok.inj h).symm⟩
  · cases h
    exact .inr ⟨hrange.1, hrange.2, by omega⟩

theorem TimestampWindow.start_le_clamp (window : TimestampWindow) (native : Nat) :
    window.start ≤ window.clamp native ∨ window.stop < window.start := by
  unfold clamp
  split_ifs <;> omega

theorem TimestampWindow.clamp_le (window : TimestampWindow) (native : Nat) :
    window.clamp native ≤ max window.start window.stop := by
  unfold clamp
  split_ifs <;> omega

structure Stamps (window : TimestampWindow) (millis : Int) (stamp : Stamp) : Prop where
  start_le : window.start ≤ stamp.origin ∨ window.stop < window.start
  le_stop : stamp.origin ≤ max window.start window.stop
  range : millis = noTimestamp ∨ 0 ≤ millis ∧ millis * 1000 < 2 ^ 63
  header : ∀ stored, stamp.header = some stored → stored = millis
  plain : stamp.header = none →
    (millis = noTimestamp ∧ stamp.origin = 0) ∨ 0 < millis ∧ (stamp.origin : Int) = millis * 1000

variable {window : TimestampWindow} {stamp : Stamp}

theorem stamp_eq_ok (h : window.stamp millis = .ok stamp) : Stamps window millis stamp := by
  obtain ⟨native, hnative, hstamp⟩ := bind_eq_ok.mp h
  cases hstamp
  have hcases := timestampIn_eq_ok hnative
  refine ⟨window.start_le_clamp native, window.clamp_le native,
    hcases.imp And.left fun ⟨hpos, hrange, _⟩ => ⟨hpos, hrange⟩, fun stored hstored => ?_,
    fun hplain => ?_⟩
  · exact (some.inj (ite_none_right_eq_some.mp hstored).2).symm
  · have hheader : ¬ (window.clamp native ≠ native ∨ millis = epochTimestamp) := fun hset =>
      nomatch (if_pos hset).symm.trans hplain
    simp only [not_or, not_not, epochTimestamp] at hheader
    simp only [hheader.1]
    rcases hcases with ⟨hnone, hzero⟩ | ⟨hpos, _, heq⟩
    · exact .inl ⟨hnone, hzero⟩
    · exact .inr ⟨by omega, heq⟩

variable {message : IggyMessage}

theorem serverTimestamp_eq (h : message.timestamp < 2 ^ 64) :
    serverTimestamp message = (message.timestamp / 1000 : Nat) :=
  if_pos (by omega)

theorem timestampOut_of_plain (hstamp : Stamps window millis stamp) (hnone : stamp.header = none)
    (horigin : message.originTimestamp = stamp.origin) (ht : message.timestamp < 2 ^ 64) :
    timestampOut message = expectedTimestamp millis message.timestamp := by
  unfold timestampOut expectedTimestamp
  rcases hstamp.plain hnone with ⟨hmillis, hzero⟩ | ⟨hpos, heq⟩
  · rw [if_pos (horigin.trans hzero), if_pos hmillis, serverTimestamp_eq ht]
  · have hne : millis ≠ noTimestamp := fun h => by simp [h, noTimestamp] at hpos
    have hrange := hstamp.range.resolve_left hne
    rw [if_neg (by omega), if_neg hne, millisOr, if_pos (by omega)]
    omega

theorem storedTimestamp_eq {stored : UserHeaders} (hstamp : Stamps window millis stamp)
    (horigin : message.originTimestamp = stamp.origin) (ht : message.timestamp < 2 ^ 64)
    (hversion : stored.get? (headerKey versionHeader) = some (headerValue [mappingVersion]))
    (htimestamp : stored.get? (headerKey timestampHeader) = stamp.header.map int64Value) :
    storedTimestamp message stored = .ok (expectedTimestamp millis message.timestamp) := by
  have hrange := hstamp.range
  simp only [noTimestamp] at hrange
  cases hheader : stamp.header with
  | none =>
    simp only [storedTimestamp, hversion, headerValue, htimestamp, hheader, map_none]
    rw [if_neg (by simp), timestampOut_of_plain hstamp hheader horigin ht]
  | some header =>
    obtain rfl := hstamp.header header hheader
    simp only [storedTimestamp, hversion, headerValue, htimestamp, hheader, map_some,
      asInt64_int64Value (show -2 ^ 63 ≤ header by omega) (by omega)]
    rw [if_neg (by simp), expectedTimestamp, epochTimestamp]
    split
    · rw [serverTimestamp_eq ht]
    · rename_i hne
      simp only [noTimestamp] at hne
      rw [if_pos (by omega)]

/-! ## Names -/

theorem utf8Bytes_of_fromUtf8 {bytes : Bytes} {text : String}
    (h : fromUtf8 bytes = some text) : utf8Bytes text = bytes := by
  unfold fromUtf8 String.fromUTF8? at h
  split_ifs at h
  cases h
  rfl

theorem stripHead_append (head rest : String) : stripHead head (head ++ rest) = some rest := by
  simp [stripHead]

theorem eq_append_of_stripHead {head text rest : String} (h : stripHead head text = some rest) :
    text = head ++ rest := by
  unfold stripHead at h
  split_ifs at h with hhead
  have hrest := utf8Bytes_of_fromUtf8 h
  refine utf8Bytes_injective ?_
  calc utf8Bytes text
      = (utf8Bytes text).take (utf8Bytes head).length ++
          (utf8Bytes text).drop (utf8Bytes head).length := (take_append_drop ..).symm
    _ = utf8Bytes (head ++ rest) := by rw [hhead, utf8Bytes_append, hrest]

@[simp] theorem kafkaName_headerKey (name : String) :
    kafkaName (headerKey (headerPrefix ++ name)) = some name := by
  simp only [kafkaName, headerName, headerKey, fromUtf8_utf8Bytes, bind_some]
  exact stripHead_append _ _

variable {key : HeaderField}

theorem eq_headerKey_of_kafkaName (hkind : key.kind = .string) (h : kafkaName key = some name) :
    key = headerKey (headerPrefix ++ name) := by
  obtain ⟨text, htext, hname⟩ := bind_eq_some_iff.mp h
  obtain ⟨kind, value⟩ := key
  obtain rfl : kind = .string := hkind
  rw [← eq_append_of_stripHead hname, headerKey, utf8Bytes_of_fromUtf8 htext]

theorem headerKey_injective : Function.Injective headerKey := by
  intro a b h
  exact utf8Bytes_injective (HeaderField.mk.inj h).2

theorem headerKey_ne_of_kafkaName {own : String} (h : kafkaName (headerKey own) = none)
    (name : String) : headerKey own ≠ headerKey (headerPrefix ++ name) := by
  intro heq
  rw [heq, kafkaName_headerKey] at h
  cases h

/-! ## The header map of the native shape -/

def putNames (headers : List (String × Option Bytes)) (base : UserHeaders) : UserHeaders :=
  headers.foldl (fun stored (name, value) => match value with
    | none => stored
    | some value => stored.insert (headerKey (headerPrefix ++ name)) (headerValue value)) base

variable {base : UserHeaders}

theorem get?_putNames_of_ne (h : ∀ header ∈ headers, key ≠ headerKey (headerPrefix ++ header.1)) :
    (putNames headers base).get? key = base.get? key := by
  induction headers generalizing base with
  | nil => rfl
  | cons header headers ih =>
    obtain ⟨name, value⟩ := header
    have hrest := fun x hx => h x (mem_cons_of_mem _ hx)
    cases value with
    | none => exact ih hrest
    | some value =>
      refine (ih hrest).trans ?_
      rw [get?_insert, if_neg (h _ mem_cons_self)]

theorem get?_putNames_of_mem {value : Bytes} (distinct : (headers.map fst).Nodup)
    (h : (name, some value) ∈ headers) :
    (putNames headers base).get? (headerKey (headerPrefix ++ name)) = some (headerValue value) := by
  induction headers generalizing base with
  | nil => cases h
  | cons header headers ih =>
    obtain ⟨hfresh, hdistinct⟩ := nodup_cons.mp distinct
    rcases mem_cons.mp h with rfl | h
    · rw [putNames, foldl_cons]
      refine (get?_putNames_of_ne fun header hheader heq => ?_).trans ?_
      · have hname : name = header.1 := by
          have := headerKey_injective heq
          exact utf8Bytes_injective (by simpa using congrArg utf8Bytes this)
        exact hfresh (mem_map.mpr ⟨header, hheader, hname.symm⟩)
      · rw [get?_insert, if_pos rfl]
    · exact ih hdistinct h

variable {value : HeaderField}

theorem mem_putNames (h : (putNames headers base).get? key = some value) :
    base.get? key = some value ∨ ∃ name bytes, (name, some bytes) ∈ headers ∧
      key = headerKey (headerPrefix ++ name) ∧ value = headerValue bytes := by
  induction headers generalizing base with
  | nil => exact .inl h
  | cons header headers ih =>
    obtain ⟨name, stored⟩ := header
    rcases ih h with hbase | ⟨other, bytes, hmem, hkey, hvalue⟩
    · cases stored with
      | none => exact .inl hbase
      | some bytes =>
        rw [get?_insert] at hbase
        split_ifs at hbase with hkey
        · exact .inr ⟨name, bytes, mem_cons_self, hkey, (some.inj hbase).symm⟩
        · exact .inl hbase
    · exact .inr ⟨other, bytes, mem_cons_of_mem _ hmem, hkey, hvalue⟩

def ownHeaders (record : Record) (stamp : Stamp) : UserHeaders :=
  let headers := gatewayHeaders stamp.header
  let headers := match (splitValue record.value).2 with
    | none => headers
    | some marker => headers.insert (headerKey valueMarkerHeader) (headerValue marker)
  match record.key with
  | none => headers
  | some key => headers.insert (headerKey keyHeader) (headerValue key)

theorem nativeHeaders_eq (record : Record) (stamp : Stamp) :
    nativeHeaders record stamp = putNames record.headers (ownHeaders record stamp) := rfl

def ownHeader (record : Record) (stamp : Stamp) (key : HeaderField) : Option HeaderField :=
  if key = headerKey keyHeader ∧ record.key.isSome then record.key.map headerValue
  else if key = headerKey valueMarkerHeader ∧ (splitValue record.value).2.isSome then
    (splitValue record.value).2.map headerValue
  else if key = headerKey timestampHeader ∧ stamp.header.isSome then stamp.header.map int64Value
  else if key = headerKey versionHeader then some (headerValue [mappingVersion])
  else none

theorem get?_ownHeaders (record : Record) (stamp : Stamp) (key : HeaderField) :
    (ownHeaders record stamp).get? key = ownHeader record stamp key := by
  unfold ownHeaders ownHeader gatewayHeaders
  cases record.key <;> cases (splitValue record.value).2 <;> cases stamp.header <;>
    simp [get?_insert]

theorem get?_nativeHeaders (record : Record) (stamp : Stamp) {own : String}
    (h : kafkaName (headerKey own) = none) :
    (nativeHeaders record stamp).get? (headerKey own) = ownHeader record stamp (headerKey own) := by
  rw [nativeHeaders_eq, get?_putNames_of_ne fun header _ => headerKey_ne_of_kafkaName h header.1,
    get?_ownHeaders]

section Own

variable (record : Record) (stamp : Stamp)

theorem ownHeader_own :
    ownHeader record stamp (headerKey versionHeader) = some (headerValue [mappingVersion]) ∧
    ownHeader record stamp (headerKey timestampHeader) = stamp.header.map int64Value ∧
    ownHeader record stamp (headerKey valueMarkerHeader) =
      (splitValue record.value).2.map headerValue ∧
    ownHeader record stamp (headerKey keyHeader) = record.key.map headerValue ∧
    ownHeader record stamp (headerKey envelopeHeader) = none := by
  simp only [ownHeader, headerKey_injective.eq_iff, versionHeader, keyHeader, valueMarkerHeader,
    timestampHeader, envelopeHeader]
  cases stamp.header <;> cases (splitValue record.value).2 <;> cases record.key <;> simp

theorem ownHeader_named (name : String) :
    ownHeader record stamp (headerKey (headerPrefix ++ name)) = none := by
  have hne : ∀ own, kafkaName (headerKey own) = none →
      headerKey (headerPrefix ++ name) ≠ headerKey own :=
    fun own hown => (headerKey_ne_of_kafkaName hown name).symm
  simp [ownHeader, hne keyHeader (by decide), hne valueMarkerHeader (by decide),
    hne timestampHeader (by decide), hne versionHeader (by decide)]

end Own

theorem kind_of_get?_nativeHeaders (h : (nativeHeaders record stamp).get? key = some value) :
    key.kind = .string := by
  rw [nativeHeaders_eq] at h
  rcases mem_putNames h with hown | ⟨_, _, _, rfl, _⟩
  · rw [get?_ownHeaders] at hown
    unfold ownHeader at hown
    split_ifs at hown with hkey hmarker htimestamp hversion
    · rw [hkey.1]; rfl
    · rw [hmarker.1]; rfl
    · rw [htimestamp.1]; rfl
    · rw [hversion]; rfl
  · rfl

/-- The stored headers that carry a Kafka name, under it. -/
def named (entries : List (HeaderField × HeaderField)) : List (String × Option Bytes) :=
  entries.filterMap fun entry => (kafkaName entry.1).map fun name => (name, some entry.2.value)

variable {entries : List (HeaderField × HeaderField)}

theorem foldlM_named (distinct : ((acc ++ named entries).map fst).Nodup) :
    entries.foldlM addNamed acc = .ok (acc ++ named entries) := by
  induction entries generalizing acc with
  | nil => simp [named, pure, Except.pure]
  | cons entry entries ih =>
    rw [foldlM_cons]
    cases hname : kafkaName entry.1 with
    | none =>
      have hnamed : named (entry :: entries) = named entries := by simp [named, hname]
      rw [hnamed] at distinct ⊢
      simp only [addNamed, hname]
      rw [ok_bind, ih distinct]
    | some name =>
      have hnamed : named (entry :: entries) = (name, some entry.2.value) :: named entries := by
        simp [named, hname]
      rw [hnamed] at distinct ⊢
      have hfresh : name ∉ acc.map fst := by
        simp only [map_append, map_cons, nodup_append] at distinct
        intro hmem
        exact distinct.2.2 name hmem name mem_cons_self rfl
      simp only [addNamed, hname, insertHeader_of_not_mem hfresh]
      rw [ok_bind, ih (by simpa using distinct)]
      simp

theorem mem_named {value : Option Bytes} :
    (name, value) ∈ named entries ↔
      ∃ entry ∈ entries, kafkaName entry.1 = some name ∧ value = some entry.2.value := by
  simp only [named, mem_filterMap, map_eq_some_iff, Prod.mk.injEq]
  constructor
  · rintro ⟨entry, hentry, _, hname, rfl, rfl⟩
    exact ⟨entry, hentry, hname, rfl⟩
  · rintro ⟨entry, hentry, hname, rfl⟩
    exact ⟨entry, hentry, name, hname, rfl, rfl⟩

/-! ## What a native record has to fit -/

structure Fits (record : Record) : Prop where
  key : ∀ key, record.key = some key → 0 < key.length ∧ key.length ≤ maxField
  name : ∀ header ∈ record.headers,
    (utf8Bytes (headerPrefix ++ header.1)).length ≤ maxField
  value : ∀ header ∈ record.headers,
    ∃ bytes, header.2 = some bytes ∧ 0 < bytes.length ∧ bytes.length ≤ maxField

theorem fits_of_needsEnvelope (h : needsEnvelope record = false) : Fits record := by
  simp only [needsEnvelope, Bool.or_eq_false_iff, List.any_eq_false, Bool.or_eq_true, not_or,
    decide_eq_true_eq, not_lt] at h
  obtain ⟨hkey, hheaders⟩ := h
  refine ⟨fun key heq => ?_, fun header hheader => ?_, fun header hheader => ?_⟩
  · rw [heq] at hkey
    simpa [length_pos_iff] using hkey
  · rw [utf8Bytes_append, length_append]
    exact (hheaders header hheader).1
  · have hvalue := (hheaders header hheader).2
    cases hbytes : header.2 with
    | none => simp [hbytes] at hvalue
    | some bytes =>
      refine ⟨bytes, rfl, ?_⟩
      simpa [hbytes, length_pos_iff] using hvalue

theorem headerKey_inRange (hpos : 0 < (utf8Bytes name).length)
    (hle : (utf8Bytes name).length ≤ maxField) : (headerKey name).InRange :=
  ⟨hpos, hle, nofun⟩

theorem headerValue_inRange {value : Bytes} (hpos : 0 < value.length)
    (hle : value.length ≤ maxField) : (headerValue value).InRange :=
  ⟨hpos, hle, nofun⟩

theorem int64Value_inRange (n : Int) : (int64Value n).InRange := by
  have hlength : (int64Value n).value.length = 8 := length_leBytes ..
  refine ⟨by omega, by rw [hlength]; decide, ?_⟩
  intro expected hexpected
  rw [hlength]
  exact some.inj hexpected

theorem AllInRange.insert {stored : UserHeaders} (h : AllInRange stored) (hkey : key.InRange)
    (hvalue : value.InRange) : AllInRange (stored.insert key value) := by
  intro k v hget
  rw [get?_insert] at hget
  split_ifs at hget with heq
  · cases hget
    rw [heq]
    exact ⟨hkey, hvalue⟩
  · exact h k v hget

theorem gatewayHeaders_inRange (timestamp : Option Int) : AllInRange (gatewayHeaders timestamp) := by
  have hempty : AllInRange .empty := nofun
  have hversion := hempty.insert
    (headerKey_inRange (show 0 < (utf8Bytes versionHeader).length by decide) (by decide))
    (headerValue_inRange (show 0 < [mappingVersion].length by decide) (by decide))
  cases timestamp with
  | none => exact hversion
  | some millis =>
    exact hversion.insert (headerKey_inRange (by decide) (by decide)) (int64Value_inRange millis)

section

variable (hfits : Fits record)
include hfits

theorem ownHeaders_inRange : AllInRange (ownHeaders record stamp) := by
  have hmarked : AllInRange (match (splitValue record.value).2 with
      | none => gatewayHeaders stamp.header
      | some marker => (gatewayHeaders stamp.header).insert (headerKey valueMarkerHeader)
          (headerValue marker)) := by
    cases hmarker : (splitValue record.value).2 with
    | none => exact gatewayHeaders_inRange stamp.header
    | some marker =>
      refine (gatewayHeaders_inRange stamp.header).insert (headerKey_inRange (by decide) (by decide)) ?_
      cases hvalue : record.value with
      | none =>
        obtain rfl : markerNull = marker := by simpa [hvalue, splitValue] using hmarker
        exact headerValue_inRange (by decide) (by decide)
      | some bytes =>
        simp only [hvalue, splitValue] at hmarker
        split_ifs at hmarker
        cases hmarker
        exact headerValue_inRange (by decide) (by decide)
  unfold ownHeaders
  cases hkey : record.key with
  | none => exact hmarked
  | some bytes =>
    obtain ⟨hpos, hle⟩ := hfits.key bytes hkey
    exact hmarked.insert (headerKey_inRange (by decide) (by decide)) (headerValue_inRange hpos hle)

theorem nativeHeaders_inRange : AllInRange (nativeHeaders record stamp) := by
  intro key value h
  rw [nativeHeaders_eq] at h
  rcases mem_putNames h with hown | ⟨name, bytes, hmem, rfl, rfl⟩
  · exact ownHeaders_inRange hfits key value hown
  · obtain ⟨_, hbytes, hpos, hle⟩ := hfits.value _ hmem
    cases hbytes
    refine ⟨headerKey_inRange ?_ (hfits.name _ hmem), headerValue_inRange hpos hle⟩
    rw [utf8Bytes_append, length_append]
    exact Nat.add_pos_left (by decide) _

/-! ## The native shape -/

theorem named_nativeHeaders (distinct : (record.headers.map fst).Nodup) :
    ((named (nativeHeaders record stamp).entries).map fst).Nodup ∧
      (named (nativeHeaders record stamp).entries).Perm record.headers := by
  have hnames : ((named (nativeHeaders record stamp).entries).map fst).Nodup := by
    have hmap : (named (nativeHeaders record stamp).entries).map fst =
        (nativeHeaders record stamp).entries.filterMap fun entry => kafkaName entry.1 := by
      simp [named, map_filterMap, Function.comp_def]
    rw [hmap, List.Nodup, pairwise_filterMap]
    refine (nativeHeaders record stamp).sorted.imp_of_mem ?_
    -- Two entries of one name have one key, and no key stands twice.
    rintro entry other hentry hother hlt name hname _ hname' rfl
    have hkey := eq_headerKey_of_kafkaName
      (kind_of_get?_nativeHeaders (mem_entries.mp hentry)) hname
    have hkey' := eq_headerKey_of_kafkaName
      (kind_of_get?_nativeHeaders (mem_entries.mp hother)) hname'
    exact hlt.ne (hkey.trans hkey'.symm)
  refine ⟨hnames, ?_⟩
  rw [perm_ext_iff_of_nodup (List.Nodup.of_map _ hnames) (List.Nodup.of_map _ distinct)]
  rintro ⟨name, value⟩
  rw [mem_named]
  constructor
  · rintro ⟨⟨key, stored⟩, hentry, hname, rfl⟩
    have hget := mem_entries.mp hentry
    obtain rfl := eq_headerKey_of_kafkaName (kind_of_get?_nativeHeaders hget) hname
    rw [nativeHeaders_eq] at hget
    rcases mem_putNames hget with hown | ⟨other, bytes, hmem, hkey, rfl⟩
    · rw [get?_ownHeaders, ownHeader_named] at hown
      cases hown
    · obtain rfl : name = other := by simpa using congrArg kafkaName hkey
      exact hmem
  · intro hmem
    obtain ⟨bytes, hbytes, _⟩ := hfits.value _ hmem
    obtain rfl : value = some bytes := hbytes
    have hget : (nativeHeaders record stamp).get? (headerKey (headerPrefix ++ name)) =
        some (headerValue bytes) := by
      rw [nativeHeaders_eq]
      exact get?_putNames_of_mem distinct hmem
    exact ⟨_, mem_entries.mpr hget, kafkaName_headerKey name, rfl⟩

theorem gatewayFields_nativeHeaders (distinct : (record.headers.map fst).Nodup)
    (hpayload : message.payload = (splitValue record.value).1) :
    ∃ headers, gatewayFields message (nativeHeaders record stamp) =
        .ok (record.key, record.value, headers) ∧ headers.Perm record.headers := by
  obtain ⟨hnames, hperm⟩ := @named_nativeHeaders record stamp hfits distinct
  have hown := ownHeader_own record stamp
  have hheaders : (nativeHeaders record stamp).entries.foldlM addNamed [] =
      .ok (named (nativeHeaders record stamp).entries) :=
    foldlM_named hnames
  have hkey : ((nativeHeaders record stamp).get? (headerKey keyHeader)).map (·.value) =
      record.key := by
    rw [get?_nativeHeaders _ _ (by decide), hown.2.2.2.1]
    cases record.key <;> rfl
  refine ⟨_, ?_, hperm⟩
  simp only [gatewayFields, hkey, hheaders, get?_nativeHeaders record stamp
    (show kafkaName (headerKey valueMarkerHeader) = none by decide), hown.2.2.1]
  cases hvalue : record.value with
  | none => rfl
  | some value =>
    rw [hvalue] at hpayload
    by_cases hempty : value.isEmpty
    · obtain rfl := List.isEmpty_iff.mp hempty
      rfl
    · simp only [splitValue, hempty] at hpayload ⊢
      simp only [Bool.false_eq_true, if_false] at hpayload
      rw [hpayload]
      rfl

end

/-! ## The three shapes -/

def envelopeHeaders (stamp : Stamp) : UserHeaders :=
  (gatewayHeaders stamp.header).insert (headerKey envelopeHeader) (headerValue [envelopeVersion])

/-- How a message holds a record. A plain record is a native one with no header but the version. -/
inductive Holds (codec : HeaderCodec) (record : Record) (stamp : Stamp) (message : IggyMessage) : Prop
  | native (fits : Fits record) (payload : message.payload = (splitValue record.value).1)
      (headers : message.userHeaders = some (codec.encode (nativeHeaders record stamp)))
  | envelope (size : envelopeSize record ≤ maxPayloadSize)
      (payload : message.payload = encodeEnvelope record)
      (headers : message.userHeaders = some (codec.encode (envelopeHeaders stamp)))

section

variable {codec : HeaderCodec} {now : Nat} {record : Record} {stamp : Stamp} {message : IggyMessage}

theorem new_eq_ok {payload : Bytes} {headers : Option UserHeaders}
    (h : IggyMessage.new codec now payload headers = .ok message) :
    message.payload = payload ∧ message.userHeaders = headers.map codec.encode := by
  unfold IggyMessage.new at h
  simp only at h
  split_ifs at h
  cases h
  exact ⟨rfl, rfl⟩

theorem build_eq_ok {payload : Bytes} {headers : UserHeaders} {origin : Nat}
    (h : build codec now payload headers origin = .ok (some message)) :
    message.payload = payload ∧ message.userHeaders = some (codec.encode headers) ∧
      message.originTimestamp = origin := by
  unfold build at h
  split at h
  · rename_i built hnew
    cases Except.ok.inj h
    exact ⟨(new_eq_ok hnew).1, (new_eq_ok hnew).2, rfl⟩
  · cases Except.ok.inj h
  · cases h

section

variable (h : envelopeMessage codec now record stamp = .ok message)
include h

theorem envelopeMessage_eq_ok :
    envelopeSize record ≤ maxPayloadSize ∧ message.payload = encodeEnvelope record ∧
      message.userHeaders = some (codec.encode (envelopeHeaders stamp)) ∧
      message.originTimestamp = stamp.origin := by
  unfold envelopeMessage at h
  split_ifs at h with hsize
  obtain ⟨built, hbuild, h⟩ := bind_eq_ok.mp h
  cases built with
  | none => cases h
  | some built =>
    cases h
    exact ⟨not_lt.mp hsize, build_eq_ok hbuild⟩

theorem holds_of_envelopeMessage :
    Holds codec record stamp message ∧ message.originTimestamp = stamp.origin := by
  obtain ⟨hsize, hpayload, hheaders, horigin⟩ := envelopeMessage_eq_ok h
  exact ⟨.envelope hsize hpayload hheaders, horigin⟩

end

theorem native_of_plainValue {value : Bytes} (h : plainValue record stamp = some value) :
    Fits record ∧ splitValue record.value = (value, none) ∧
      nativeHeaders record stamp = gatewayHeaders none := by
  unfold plainValue at h
  split_ifs at h with hplain
  simp only [Bool.or_eq_true, Bool.not_eq_eq_eq_not, Bool.not_true, not_or, Bool.not_eq_true,
    isSome_eq_false_iff, isNone_iff_eq_none, Bool.not_eq_false,
    List.isEmpty_iff] at hplain
  obtain ⟨⟨hkey, hheaders⟩, hstamp⟩ := hplain
  obtain ⟨hvalue, hnonempty⟩ := filter_eq_some_iff.mp h
  have hsplit : splitValue record.value = (value, none) := by
    rw [hvalue, splitValue, if_neg (by simpa using hnonempty)]
  refine ⟨⟨fun key heq => ?_, fun header hheader => ?_, fun header hheader => ?_⟩, hsplit, ?_⟩
  · rw [hkey] at heq
    cases heq
  · rw [hheaders] at hheader
    cases hheader
  · rw [hheaders] at hheader
    cases hheader
  · simp only [nativeHeaders, hsplit, hkey, hheaders, hstamp, foldl_nil]

theorem holds_of_toIggy {window : TimestampWindow}
    (h : toIggy codec now record window = .ok message) :
    ∃ stamp, window.stamp record.timestamp = .ok stamp ∧ Holds codec record stamp message ∧
      message.originTimestamp = stamp.origin := by
  obtain ⟨stamp, hstamp, h⟩ := bind_eq_ok.mp h
  refine ⟨stamp, hstamp, ?_⟩
  cases hplain : plainValue record stamp with
  | some value =>
    obtain ⟨hfits, hsplit, hheaders⟩ := native_of_plainValue hplain
    simp only [hplain, plainMessage] at h
    split at h
    · cases h
    rename_i built hnew
    cases h
    refine ⟨.native hfits ?_ ?_, rfl⟩
    · rw [hsplit]
      exact (new_eq_ok hnew).1
    · rw [hheaders]
      rfl
  | none =>
    simp only [hplain] at h
    split_ifs at h with hneeds
    · exact holds_of_envelopeMessage h
    · obtain ⟨built, hbuild, h⟩ := bind_eq_ok.mp h
      cases built with
      | none => exact holds_of_envelopeMessage h
      | some built =>
        cases h
        obtain ⟨hpayload, hheaders, horigin⟩ := build_eq_ok hbuild
        exact ⟨.native (fits_of_needsEnvelope (by simpa using hneeds)) hpayload hheaders, horigin⟩

/-- The version, the timestamp if it needs one, and the envelope's own. -/
theorem get?_envelopeHeaders (stamp : Stamp) :
    (envelopeHeaders stamp).get? (headerKey versionHeader) = some (headerValue [mappingVersion]) ∧
    (envelopeHeaders stamp).get? (headerKey timestampHeader) = stamp.header.map int64Value ∧
    (envelopeHeaders stamp).get? (headerKey envelopeHeader) =
      some (headerValue [envelopeVersion]) := by
  cases hheader : stamp.header <;>
    simp [envelopeHeaders, gatewayHeaders, hheader, get?_insert,
      headerKey_injective.eq_iff, versionHeader, timestampHeader, envelopeHeader]

theorem envelopeHeaders_inRange (stamp : Stamp) : AllInRange (envelopeHeaders stamp) :=
  (gatewayHeaders_inRange stamp.header).insert (headerKey_inRange (by decide) (by decide))
    (headerValue_inRange (by decide) (by decide))

/-- The shortcut for the plain shape reads the map it stands for. -/
theorem fromIggy_of_stored {stored : UserHeaders} {fields : RecordFields} {timestamp : Int}
    (law : codec.Inverse) (hrange : AllInRange stored)
    (hheaders : message.userHeaders = some (codec.encode stored))
    (hversion : stored.get? (headerKey versionHeader) = some (headerValue [mappingVersion]))
    (htimestamp : storedTimestamp message stored = .ok timestamp)
    (hfields : (match stored.get? (headerKey envelopeHeader) with
      | some envelope => decodeEnvelope envelope.value message.payload
      | none => gatewayFields message stored) = .ok fields) (offset : Int) :
    fromIggy codec message offset = .ok
        { key := fields.1, value := fields.2.1, headers := fields.2.2, offset, timestamp } ∧
      recordTimestamp codec message = .ok timestamp := by
  have hstored : storedHeaders codec message = .ok stored := by
    simp [storedHeaders, IggyMessage.userHeadersMap, hheaders, law stored hrange]
  by_cases hshort : message.userHeaders = some (versionOnly codec)
  · -- The codec is injective on maps in range, so the stored map is the one with the version alone.
    have hplain : stored = gatewayHeaders none := by
      have hbytes : codec.encode stored = codec.encode (gatewayHeaders none) :=
        some.inj (hheaders.symm.trans hshort)
      have hread := law stored hrange
      rw [hbytes, law (gatewayHeaders none) (gatewayHeaders_inRange none)] at hread
      exact (some.inj (Except.ok.inj hread)).symm
    subst hplain
    have htime : timestampOut message = timestamp := Except.ok.inj htimestamp
    have hread : ((none, some message.payload, []) : RecordFields) = fields := Except.ok.inj hfields
    subst hread htime
    exact ⟨if_pos hshort, if_pos hshort⟩
  · constructor
    · rw [fromIggy, if_neg hshort, hstored, ok_bind, htimestamp, ok_bind, hversion]
      simp only [isNone_some, Bool.false_eq_true, if_false]
      cases henvelope : stored.get? (headerKey envelopeHeader) with
      | none =>
        simp only [henvelope] at hfields
        rw [hfields]
        rfl
      | some envelope =>
        simp only [henvelope] at hfields
        simp only [hfields]
        rfl
    · rw [recordTimestamp, if_neg hshort, hstored]
      exact htimestamp

theorem fromIggy_of_holds {window : TimestampWindow} (law : codec.Inverse)
    (distinct : (record.headers.map fst).Nodup)
    (hstamp : Stamps window record.timestamp stamp) (holds : Holds codec record stamp message)
    (horigin : message.originTimestamp = stamp.origin) (ht : message.timestamp < 2 ^ 64)
    (offset : Int) :
    ∃ headers, headers.Perm record.headers ∧
      fromIggy codec message offset = .ok
        { key := record.key, value := record.value, headers, offset,
          timestamp := expectedTimestamp record.timestamp message.timestamp } ∧
      recordTimestamp codec message =
        .ok (expectedTimestamp record.timestamp message.timestamp) := by
  cases holds with
  | native hfits hpayload hheaders =>
    obtain ⟨headers, hfields, hperm⟩ :=
      @gatewayFields_nativeHeaders record stamp message hfits distinct hpayload
    obtain ⟨hversion, htimestamp, -, -, henvelope⟩ := ownHeader_own record stamp
    rw [← get?_nativeHeaders _ _ (by decide)] at hversion htimestamp henvelope
    exact ⟨headers, hperm, fromIggy_of_stored law (nativeHeaders_inRange hfits) hheaders hversion
      (storedTimestamp_eq hstamp horigin ht hversion htimestamp) (by rw [henvelope]; exact hfields)
      offset⟩
  | envelope hsize hpayload hheaders =>
    obtain ⟨hversion, htimestamp, henvelope⟩ := get?_envelopeHeaders stamp
    have hfields : decodeEnvelope [envelopeVersion] message.payload =
        .ok (record.key, record.value, record.headers) := by
      rw [hpayload]
      exact decodeEnvelope_encodeEnvelope record distinct
        (hsize.trans_lt (by decide))
    exact ⟨record.headers, .refl _, fromIggy_of_stored law (envelopeHeaders_inRange stamp) hheaders
      hversion (storedTimestamp_eq hstamp horigin ht hversion htimestamp)
      (by rw [henvelope]; exact hfields) offset⟩

end

/-! ## One send -/

theorem TimestampWindow.start_of_lt (records : List Record) : (of records).start < 2 ^ 63 := by
  simp only [of]
  cases hmin : ((records.filter fun record => epochTimestamp < record.timestamp).filterMap
      fun record => (timestampIn record.timestamp).toOption).min? with
  | none => decide
  | some start =>
    have hmem := min?_mem hmin
    obtain ⟨record, _, hstart⟩ := mem_filterMap.mp hmem
    cases hin : timestampIn record.timestamp with
    | error error =>
      rw [hin] at hstart
      cases hstart
    | ok native =>
      rw [hin] at hstart
      obtain rfl : native = start := some.inj hstart
      rcases timestampIn_eq_ok hin with ⟨_, rfl⟩ | ⟨_, hrange, heq⟩
      · decide
      · simp only [getD_some]
        omega

theorem origin_le_of_window {records : List Record} {millis' : Int} {stamp' : Stamp}
    (h : Stamps (of records) millis stamp)
    (h' : Stamps (of records) millis' stamp') :
    stamp.origin ≤ stamp'.origin + maxSendSpanMicros := by
  have hstart := start_of_lt records
  have hle := h.le_stop
  have hge := h'.start_le
  simp only [stop, maxSendSpanMicros] at hle hge ⊢
  omega

/-- **A record comes back as it was.** Whatever shape a record is stored in, reading the message
gives its key and value, null and empty apart, its headers, the offset of the read and its own
timestamp, or the server's when it has none; the timestamp read alone is the same. An envelope
decodes to what was encoded, in just the size computed for it, and the messages of one send lie
within what the server's deltas can span. -/
theorem fromIggy_toIggy (codec : HeaderCodec) (law : codec.Inverse) :
    (∀ (now : Nat) (record : Record) (window : TimestampWindow) (message : IggyMessage)
      (offset : Int) (t : Nat), (record.headers.map fst).Nodup → t < 2 ^ 64 →
      toIggy codec now record window = .ok message →
      ∃ read, fromIggy codec { message with timestamp := t } offset = .ok read ∧
        read.key = record.key ∧ read.value = record.value ∧ read.headers.Perm record.headers ∧
        read.offset = offset ∧
        read.timestamp =
          (if record.timestamp = noTimestamp then ((t / 1000 : Nat) : Int) else record.timestamp) ∧
        recordTimestamp codec { message with timestamp := t } = .ok read.timestamp) ∧
    (∀ record : Record, (record.headers.map fst).Nodup → envelopeSize record < 2 ^ 32 →
      decodeEnvelope [envelopeVersion] (encodeEnvelope record) =
        .ok (record.key, record.value, record.headers)) ∧
    (∀ (now : Nat) (record : Record) (stamp : Stamp) (message : IggyMessage),
      (record.headers.map fst).Nodup →
      envelopeMessage codec now record stamp = .ok message →
      decodeEnvelope [envelopeVersion] message.payload =
        .ok (record.key, record.value, record.headers)) ∧
    (∀ record : Record, (encodeEnvelope record).length = envelopeSize record) ∧
    (∀ (records : List Record) (record record' : Record) (now now' : Nat)
      (message message' : IggyMessage),
      record ∈ records → record' ∈ records →
      toIggy codec now record (of records) = .ok message →
      toIggy codec now' record' (of records) = .ok message' →
      message.originTimestamp ≤ message'.originTimestamp + (2 ^ 32 - 1)) := by
  refine ⟨?_, decodeEnvelope_encodeEnvelope, ?_, length_encodeEnvelope, ?_⟩
  · intro now record window message offset t distinct ht hwrite
    obtain ⟨stamp, hstamp, holds, horigin⟩ := holds_of_toIggy hwrite
    -- The server's timestamp is no part of what holds the record.
    have holds' : Holds codec record stamp { message with timestamp := t } := by
      cases holds with
      | native hfits hpayload hheaders => exact .native hfits hpayload hheaders
      | envelope hsize hpayload hheaders => exact .envelope hsize hpayload hheaders
    obtain ⟨headers, hperm, hread, htimestamp⟩ :=
      fromIggy_of_holds law distinct (stamp_eq_ok hstamp) holds' horigin ht offset
    exact ⟨_, hread, rfl, rfl, hperm, rfl, rfl, htimestamp⟩
  · intro now record stamp message distinct hwrite
    obtain ⟨hsize, hpayload, _, _⟩ := envelopeMessage_eq_ok hwrite
    rw [hpayload]
    exact decodeEnvelope_encodeEnvelope record distinct (hsize.trans_lt (by decide))
  · intro records record record' now now' message message' _ _ hwrite hwrite'
    obtain ⟨stamp, hstamp, _, horigin⟩ := holds_of_toIggy hwrite
    obtain ⟨stamp', hstamp', _, horigin'⟩ := holds_of_toIggy hwrite'
    rw [horigin, horigin']
    exact origin_le_of_window (stamp_eq_ok hstamp) (stamp_eq_ok hstamp')

def tombstone : Record :=
  { key := some [1], value := none, headers := [("a", some [2])], offset := 0, timestamp := -1 }

theorem fromIggy_toIggy_tombstone :
    ∃ message read, toIggy wireCodec 9 tombstone ⟨4000⟩ = .ok message ∧
      fromIggy wireCodec { message with timestamp := 5000 } 7 = .ok read ∧
      read.key = some [1] ∧ read.value = none ∧ read.headers.Perm [("a", some [2])] ∧
      read.offset = 7 ∧ read.timestamp = 5 := by
  have hwritten : (toIggy wireCodec 9 tombstone ⟨4000⟩).isOk = true := by decide +kernel
  obtain ⟨message, hwrite⟩ : ∃ message, toIggy wireCodec 9 tombstone ⟨4000⟩ = .ok message := by
    cases hmessage : toIggy wireCodec 9 tombstone ⟨4000⟩ with
    | error error =>
      rw [hmessage] at hwritten
      cases hwritten
    | ok message => exact ⟨message, rfl⟩
  obtain ⟨read, hread, hkey, hvalue, hheaders, hoffset, htimestamp, _⟩ :=
    (fromIggy_toIggy wireCodec wireCodec_inverse).1 9 tombstone ⟨4000⟩ message 7 5000
      (by decide) (by decide) hwrite
  exact ⟨message, read, hwrite, hread, hkey, hvalue, hheaders, hoffset, htimestamp⟩

end Iggy.Kafka
