import Iggy.Consensus.Superblock
import Iggy.Lib.Except

/-!
# The bytes of a superblock record

Source: vsr_state.rs:409-543.

Three layouts share one prefix of fixed fields: 66 bytes without the reservation, 74 with it, and
the versioned record, which may end with an adopted view. Its headers are checked again with the
decoder of the wire suffix (`AdoptedView.validate`), so what is accepted is what a suffix may carry
(`SlotsOk`).
-/

namespace Iggy

open List Lib PrepareHeader

def encodedLen : Nat := 74

def encodedLenWithoutReservation : Nat := 66

def recoveryVersion : Nat := 2

def recoveryPrefixLen : Nat := encodedLen + 4

/-- The adopted view has 40 bytes of fields before its headers. -/
def adoptedHeadersOffset : Nat := recoveryPrefixLen + 40

inductive VsrStateError
  | wrongLength (expected actual : Nat)
  | logViewAheadOfView (view logView : Nat)
  | unsupportedVersion (version : Nat)
  | invalidAdoptedView
  | adoptedGroupMismatch
  deriving DecidableEq

namespace AdoptedView

def widths : List Nat := [4, 8, 8, 8, 8, 4]

variable (a : AdoptedView)

/-- The fields before the headers; the count saturates. -/
def fields : List Nat :=
  [a.view, a.group, a.partitionIncarnation, a.opHead, a.commitMax,
    min a.headers.length (2 ^ 32 - 1)]

def Fits : Prop := FieldsFit widths a.fields ∧ ∀ h ∈ a.headers, h.Fits

instance (a : AdoptedView) : Decidable a.Fits :=
  inferInstanceAs (Decidable (List.Forall₂ _ _ _ ∧ ∀ h ∈ _, _))

def toBytes : Bytes :=
  packFields widths a.fields ++ encodePrepareHeaders a.headers

end AdoptedView

namespace VsrState

/-- The fixed fields, then the version and whether an adopted view follows. -/
def widths : List Nat := [16, 1, 1, 4, 4, 8, 8, 16, 8, 8, 2, 2]

def fields (s : VsrState) : List Nat :=
  [s.cluster, s.replicaId, s.replicaCount, s.view, s.logView, s.commitMax, s.checkpointOp,
    s.checkpointChecksum, s.offsetFrontier, s.offsetReserved, recoveryVersion,
    if s.adoptedView.isSome then 1 else 0]

def Fits (s : VsrState) : Prop := FieldsFit widths s.fields ∧ ∀ a ∈ s.adoptedView, a.Fits

instance (s : VsrState) : Decidable s.Fits :=
  inferInstanceAs (Decidable (List.Forall₂ _ _ _ ∧ ∀ a ∈ s.adoptedView, _))

def toBytes (s : VsrState) : Bytes :=
  packFields widths s.fields ++ (s.adoptedView.map AdoptedView.toBytes).getD []

variable (bytes : Bytes)

def field (start width : Nat) : Nat := leNat ((bytes.drop start).take width)

def readHeaders : Nat → Bytes → Option (List PrepareHeader)
  | 0, _ => some []
  | count + 1, body =>
    match tryFromBytes (body.take headerSize) with
    | none => none
    | some header => (readHeaders count (body.drop headerSize)).map (header :: ·)

def decodeAdopted : Except VsrStateError (Option AdoptedView) :=
  if bytes.length < recoveryPrefixLen then .ok none
  else if field bytes 74 2 ≠ recoveryVersion then .error (.unsupportedVersion (field bytes 74 2))
  else if field bytes 76 2 = 0 ∧ bytes.length = recoveryPrefixLen then .ok none
  else if field bytes 76 2 = 1 ∧ adoptedHeadersOffset ≤ bytes.length then
    let fields := bytes.drop recoveryPrefixLen
    let count := field fields 36 4
    if dvcHeadersMax < count ∨ bytes.length ≠ adoptedHeadersOffset + count * headerSize then
      .error .invalidAdoptedView
    else match readHeaders count (bytes.drop adoptedHeadersOffset) with
      | none => .error .invalidAdoptedView
      | some headers =>
        .ok (some {
          view := field fields 0 4
          group := field fields 4 8
          partitionIncarnation := field fields 12 8
          opHead := field fields 20 8
          commitMax := field fields 28 8
          headers })
  else .error .invalidAdoptedView

/-- A record without a reservation gets its frontier for it. -/
def padded : Except VsrStateError Bytes :=
  if recoveryPrefixLen ≤ bytes.length then .ok (bytes.take encodedLen)
  else if bytes.length = encodedLen then .ok bytes
  else if bytes.length = encodedLenWithoutReservation then
    .ok (bytes ++ (bytes.drop 58).take 8)
  else .error (.wrongLength encodedLen bytes.length)

def ofFields (adoptedView : Option AdoptedView) : VsrState where
  cluster := field bytes 0 16
  replicaId := field bytes 16 1
  replicaCount := field bytes 17 1
  view := field bytes 18 4
  logView := field bytes 22 4
  commitMax := field bytes 26 8
  checkpointOp := field bytes 34 8
  checkpointChecksum := field bytes 42 16
  offsetFrontier := field bytes 58 8
  offsetReserved := field bytes 66 8
  adoptedView

def checked (xxh3 : Bytes → Nat) (s : VsrState) : Except VsrStateError VsrState :=
  if s.view < s.logView then .error (.logViewAheadOfView s.view s.logView)
  else match s.adoptedView with
    | none => .ok s
    | some adopted =>
      if adopted.validate xxh3 s.cluster s.view then .ok s else .error .invalidAdoptedView

def tryFrom (xxh3 : Bytes → Nat) (bytes : Bytes) : Except VsrStateError VsrState := do
  let adoptedView ← decodeAdopted bytes
  let bytes ← padded bytes
  checked xxh3 (ofFields bytes adoptedView)

/-! ## Fields and bytes -/

variable {bytes : Bytes}

theorem field_take {start width n : Nat} (h : start + width ≤ n) :
    field (bytes.take n) start width = field bytes start width := by
  rw [field, field, drop_take, take_take, min_eq_left (by omega)]

theorem unpackFields_vsr (bytes : Bytes) :
    unpackFields widths bytes =
      [field bytes 0 16, field bytes 16 1, field bytes 17 1, field bytes 18 4, field bytes 22 4,
        field bytes 26 8, field bytes 34 8, field bytes 42 16, field bytes 58 8, field bytes 66 8,
        field bytes 74 2, field bytes 76 2] := by
  simp [unpackFields, widths, field, drop_drop]

theorem unpackFields_adopted (bytes : Bytes) :
    unpackFields AdoptedView.widths bytes =
      [field bytes 0 4, field bytes 4 8, field bytes 12 8, field bytes 20 8, field bytes 28 8,
        field bytes 36 4] := by
  simp [unpackFields, AdoptedView.widths, field, drop_drop]

variable {s : VsrState} {xxh3 : Bytes → Nat}

theorem ofFields_toBytes (h : FieldsFit widths s.fields) (tail : Bytes) :
    ofFields (packFields widths s.fields ++ tail) s.adoptedView = s := by
  have hfields := unpackFields_packFields_append h tail
  -- the bytes are named first: they mention the fields that are read off below
  generalize packFields widths s.fields ++ tail = bytes at hfields ⊢
  rw [unpackFields_vsr] at hfields
  simp only [fields, List.cons.injEq] at hfields
  obtain ⟨hcluster, hreplica, hcount, hview, hlog, hcommit, hop, hsum, hfrontier, hreserved, -⟩ :=
    hfields
  simp only [ofFields, hcluster, hreplica, hcount, hview, hlog, hcommit, hop, hsum, hfrontier,
    hreserved]

theorem ofFields_take (bytes : Bytes) (adoptedView : Option AdoptedView) :
    ofFields (bytes.take encodedLen) adoptedView = ofFields bytes adoptedView := by
  simp (disch := decide) only [ofFields, field_take]

theorem fieldsFit_ofFields (bytes : Bytes) (adoptedView : Option AdoptedView) :
    FieldsFit widths (ofFields bytes adoptedView).fields := by
  have hfits := fieldsFit_unpackFields widths bytes
  rw [unpackFields_vsr] at hfits
  simp only [widths, FieldsFit, fields, ofFields, forall₂_cons] at hfits ⊢
  obtain ⟨hcluster, hreplica, hcount, hview, hlog, hcommit, hop, hsum, hfrontier, hreserved, -⟩ :=
    hfits
  refine ⟨hcluster, hreplica, hcount, hview, hlog, hcommit, hop, hsum, hfrontier, hreserved,
    by decide, ?_, .nil⟩
  cases adoptedView <;> simp

/-! ## Headers -/

theorem readHeaders_encode {hs : List PrepareHeader} (h : ∀ x ∈ hs, x.Fits) :
    readHeaders hs.length (encodePrepareHeaders hs) = some hs := by
  induction hs with
  | nil => rfl
  | cons x hs ih =>
    have hx := h x mem_cons_self
    have hlen := length_bytesOf hx
    have hencode : encodePrepareHeaders (x :: hs) = x.bytesOf ++ encodePrepareHeaders hs :=
      flatMap_cons
    rw [length_cons, readHeaders, hencode, take_left' hlen, drop_left' hlen,
      tryFromBytes_bytesOf hx, ih fun y hy => h y (mem_cons_of_mem _ hy)]
    rfl

theorem readHeaders_spec {count : Nat} {body : Bytes} {hs : List PrepareHeader}
    (h : readHeaders count body = some hs) : hs.length = count ∧ ∀ x ∈ hs, x.Fits := by
  induction count generalizing body hs with
  | zero =>
    cases h
    exact ⟨rfl, fun x hx => absurd hx not_mem_nil⟩
  | succ count ih =>
    rw [readHeaders] at h
    split at h
    · exact nomatch h
    rename_i header hheader
    obtain ⟨rest, hrest, rfl⟩ := Option.map_eq_some_iff.mp h
    obtain ⟨hlen, hfits⟩ := ih hrest
    exact ⟨by rw [length_cons, hlen],
      forall_mem_cons.mpr ⟨fits_of_tryFromBytes hheader, hfits⟩⟩

variable {a : AdoptedView} {cluster view : Nat}

theorem slotsOk_of_validate (hlen : a.headers.length ≤ dvcHeadersMax)
    (hfits : ∀ h ∈ a.headers, h.Fits) (h : a.validate xxh3 cluster view = true) :
    SlotsOk xxh3 a.opHead 0 none a.headers := by
  unfold AdoptedView.validate at h
  split_ifs at h
  split at h
  · exact nomatch h
  rename_i out hdecode
  have hpos : 0 < 2 ^ a.headers.length := Nat.two_pow_pos _
  have hsame := headers_of_dvcSuffixDecode_encode xxh3
    (s := ⟨a.headers, 0, 0, hlen, hpos, hpos⟩) hfits hdecode
  have hslots := (dvcSuffixDecode_ok xxh3 hdecode).2.2
  rwa [hsame] at hslots

theorem validate_of_slotsOk (hlen : a.headers.length ≤ dvcHeadersMax)
    (hfits : ∀ h ∈ a.headers, h.Fits) (hview : a.view ≤ view) (hcommit : a.commitMax ≤ a.opHead)
    (hslots : SlotsOk xxh3 a.opHead 0 none a.headers)
    (hbelongs : ∀ h ∈ a.headers, a.Belongs cluster h) : a.validate xxh3 cluster view = true := by
  have hpos : 0 < 2 ^ a.headers.length := Nat.two_pow_pos _
  have hdecode : dvcSuffixDecode xxh3 (encodePrepareHeaders a.headers) a.opHead 0 0 =
      .ok ⟨a.headers, 0, 0, hlen, hpos, hpos⟩ :=
    dvcSuffixDecode_encode xxh3 (s := ⟨a.headers, 0, 0, hlen, hpos, hpos⟩) hfits hslots
  rw [AdoptedView.validate, if_neg (by omega), hdecode]
  exact decide_eq_true hbelongs

/-! ## The adopted view -/

theorem length_fixed (h : FieldsFit widths s.fields) :
    (packFields widths s.fields).length = recoveryPrefixLen := length_packFields h

theorem length_adopted (h : a.Fits) : a.toBytes.length = 40 + a.headers.length * headerSize := by
  rw [AdoptedView.toBytes, length_append, length_packFields h.1]
  exact congrArg (40 + ·)
    (length_flatMap_const _ _ _ fun x hx => length_bytesOf (h.2 x hx))

/-- They are where `decodeAdopted` looks for them. -/
theorem marks_toBytes (h : FieldsFit widths s.fields) (tail : Bytes) :
    field (packFields widths s.fields ++ tail) 74 2 = recoveryVersion ∧
      field (packFields widths s.fields ++ tail) 76 2 = if s.adoptedView.isSome then 1 else 0 := by
  have hfields := unpackFields_packFields_append h tail
  rw [unpackFields_vsr] at hfields
  exact ⟨congrArg (·.getD 10 0) hfields, congrArg (·.getD 11 0) hfields⟩

theorem adopted_fields_toBytes (h : a.Fits) :
    field a.toBytes 0 4 = a.view ∧ field a.toBytes 4 8 = a.group ∧
      field a.toBytes 12 8 = a.partitionIncarnation ∧ field a.toBytes 20 8 = a.opHead ∧
      field a.toBytes 28 8 = a.commitMax ∧
      field a.toBytes 36 4 = min a.headers.length (2 ^ 32 - 1) := by
  have hfields : unpackFields AdoptedView.widths a.toBytes = a.fields :=
    unpackFields_packFields_append h.1 _
  generalize a.toBytes = bytes at hfields ⊢
  rw [unpackFields_adopted] at hfields
  simpa only [AdoptedView.fields, List.cons.injEq, and_true] using hfields

theorem decodeAdopted_toBytes (h : s.Fits)
    (hlen : ∀ a ∈ s.adoptedView, a.headers.length ≤ dvcHeadersMax) :
    decodeAdopted s.toBytes = .ok s.adoptedView := by
  obtain ⟨hversion, hpresent⟩ := marks_toBytes h.1 ((s.adoptedView.map AdoptedView.toBytes).getD [])
  rw [← toBytes] at hversion hpresent
  have hfixed := length_fixed h.1
  cases hadopted : s.adoptedView with
  | none =>
    have hbytes : s.toBytes.length = recoveryPrefixLen := by
      rw [toBytes, hadopted, length_append, hfixed]
      rfl
    rw [hadopted] at hpresent
    rw [decodeAdopted, if_neg (by omega), if_neg (not_not.mpr hversion),
      if_pos ⟨hpresent, hbytes⟩]
  | some a =>
    have hfits := h.2 a hadopted
    have hcount := hlen a hadopted
    have hbytes : s.toBytes = packFields widths s.fields ++ a.toBytes := by
      rw [toBytes, hadopted]; rfl
    have hlength : s.toBytes.length = adoptedHeadersOffset + a.headers.length * headerSize := by
      rw [hbytes, length_append, hfixed, length_adopted hfits, adoptedHeadersOffset]
      omega
    have hfields : s.toBytes.drop recoveryPrefixLen = a.toBytes := by
      rw [hbytes, drop_left' hfixed]
    have hheaders : s.toBytes.drop adoptedHeadersOffset = encodePrepareHeaders a.headers := by
      have hadoptedLen : (packFields AdoptedView.widths a.fields).length = 40 :=
        length_packFields hfits.1
      rw [adoptedHeadersOffset, ← drop_drop, hfields, AdoptedView.toBytes, drop_left' hadoptedLen]
    obtain ⟨hview, hgroup, hincarnation, hop, hcommit, hn⟩ := adopted_fields_toBytes hfits
    rw [min_eq_left (by simp only [dvcHeadersMax] at hcount; omega)] at hn
    rw [hadopted] at hpresent
    have hone : field s.toBytes 76 2 = 1 := hpresent
    rw [decodeAdopted, if_neg (by rw [hlength, adoptedHeadersOffset]; omega),
      if_neg (not_not.mpr hversion), if_neg (by omega), if_pos ⟨hone, by omega⟩]
    simp only [hfields, hn, hheaders]
    rw [if_neg (by omega), readHeaders_encode hfits.2]
    simp only [hview, hgroup, hincarnation, hop, hcommit]

theorem decodeAdopted_fits (h : decodeAdopted bytes = .ok (some a)) :
    a.Fits ∧ a.headers.length ≤ dvcHeadersMax := by
  unfold decodeAdopted at h
  split_ifs at h
  iterate 2 exact nomatch h
  dsimp only at h
  split_ifs at h with hcount
  split at h
  · exact nomatch h
  next headers hheaders =>
    obtain rfl : _ = a := Option.some.inj (Except.ok.inj h)
    obtain ⟨hn, hfits⟩ := readHeaders_spec hheaders
    have hmax : headers.length ≤ dvcHeadersMax := by omega
    refine ⟨⟨?_, hfits⟩, hmax⟩
    have hfields := fieldsFit_unpackFields AdoptedView.widths (bytes.drop recoveryPrefixLen)
    rw [unpackFields_adopted] at hfields
    simp only [AdoptedView.widths, FieldsFit, AdoptedView.fields, forall₂_cons] at hfields ⊢
    obtain ⟨hview, hgroup, hincarnation, hop, hcommit, -⟩ := hfields
    refine ⟨hview, hgroup, hincarnation, hop, hcommit, ?_, .nil⟩
    simp only [dvcHeadersMax] at hmax
    omega

/-! ## The record -/

theorem checked_eq_ok {r : VsrState} : checked xxh3 s = .ok r ↔
    r = s ∧ s.logView ≤ s.view ∧
      ∀ a ∈ s.adoptedView, a.validate xxh3 s.cluster s.view = true := by
  unfold checked
  split_ifs with hview
  · exact ⟨nofun, fun h => absurd hview (not_lt.mpr h.2.1)⟩
  have hle := not_lt.mp hview
  cases hadopted : s.adoptedView with
  | none => exact ⟨fun h => ⟨(Except.ok.inj h).symm, hle, nofun⟩, fun h => h.1 ▸ rfl⟩
  | some a =>
    dsimp only
    by_cases hvalid : a.validate xxh3 s.cluster s.view = true
    · rw [if_pos hvalid]
      refine ⟨fun h => ⟨(Except.ok.inj h).symm, hle, fun b hb => ?_⟩, fun h => h.1 ▸ rfl⟩
      rwa [← Option.mem_some_iff.mp hb]
    · rw [if_neg hvalid]
      exact ⟨nofun, fun h => absurd (h.2.2 a rfl) hvalid⟩

theorem tryFrom_eq_ok {r : VsrState} (h : tryFrom xxh3 bytes = .ok r) :
    ∃ adopted record, decodeAdopted bytes = .ok adopted ∧ padded bytes = .ok record ∧
      r = ofFields record adopted ∧ r.logView ≤ r.view ∧
      ∀ a ∈ r.adoptedView, a.validate xxh3 r.cluster r.view = true := by
  obtain ⟨adopted, hadopted, h⟩ := bind_eq_ok.mp h
  obtain ⟨record, hrecord, h⟩ := bind_eq_ok.mp h
  obtain ⟨rfl, hview, hvalid⟩ := checked_eq_ok.mp h
  exact ⟨adopted, record, hadopted, hrecord, rfl, hview, hvalid⟩

theorem tryFrom_toBytes (hfits : s.Fits) (hview : s.logView ≤ s.view)
    (hadopted : ∀ a ∈ s.adoptedView,
      a.headers.length ≤ dvcHeadersMax ∧ a.validate xxh3 s.cluster s.view = true) :
    tryFrom xxh3 s.toBytes = .ok s := by
  have hdecode := decodeAdopted_toBytes hfits fun a ha => (hadopted a ha).1
  have hlength : recoveryPrefixLen ≤ s.toBytes.length := by
    rw [toBytes, length_append, length_fixed hfits.1]
    exact Nat.le_add_right _ _
  have hrecord : padded s.toBytes = .ok (s.toBytes.take encodedLen) := if_pos hlength
  have hstate : ofFields (s.toBytes.take encodedLen) s.adoptedView = s :=
    (ofFields_take _ _).trans (ofFields_toBytes hfits.1 _)
  refine bind_eq_ok.mpr ⟨_, hdecode, bind_eq_ok.mpr ⟨_, hrecord, ?_⟩⟩
  rw [hstate]
  exact checked_eq_ok.mpr ⟨rfl, hview, fun a ha => (hadopted a ha).2⟩

theorem fits_of_tryFrom (h : tryFrom xxh3 bytes = .ok s) :
    s.Fits ∧ s.logView ≤ s.view ∧ ∀ a ∈ s.adoptedView,
      a.headers.length ≤ dvcHeadersMax ∧ a.validate xxh3 s.cluster s.view = true := by
  obtain ⟨adopted, record, hadopted, -, rfl, hview, hvalid⟩ := tryFrom_eq_ok h
  have hdecoded : ∀ a ∈ adopted, a.Fits ∧ a.headers.length ≤ dvcHeadersMax := by
    rintro a rfl
    exact decodeAdopted_fits hadopted
  exact ⟨⟨fieldsFit_ofFields _ _, fun a ha => (hdecoded a ha).1⟩, hview,
    fun a ha => ⟨(hdecoded a ha).2, hvalid a ha⟩⟩

theorem tryFrom_legacy {record : Bytes} (hshort : bytes.length < recoveryPrefixLen)
    (hrecord : padded bytes = .ok record) (hview : field record 22 4 ≤ field record 18 4) :
    tryFrom xxh3 bytes = .ok (ofFields record none) :=
  bind_eq_ok.mpr ⟨none, if_pos hshort, bind_eq_ok.mpr ⟨record, hrecord,
    checked_eq_ok.mpr ⟨rfl, hview, nofun⟩⟩⟩

theorem ofFields_frontier (hlen : bytes.length = encodedLenWithoutReservation) :
    ofFields (bytes ++ (bytes.drop 58).take 8) none =
      { ofFields bytes none with offsetReserved := field bytes 58 8 } := by
  have hfield : ∀ start width, start + width ≤ encodedLenWithoutReservation →
      field (bytes ++ (bytes.drop 58).take 8) start width = field bytes start width := by
    intro start width h
    rw [← field_take h, take_left' hlen]
  have hreserved : field (bytes ++ (bytes.drop 58).take 8) 66 8 = field bytes 58 8 := by
    have hdrop : (bytes ++ (bytes.drop 58).take 8).drop 66 = (bytes.drop 58).take 8 :=
      drop_left' hlen
    rw [field, hdrop, take_take, min_self, field]
  simp (disch := decide) only [ofFields, hreserved, hfield]

/-- The headers of an accepted adopted view go down from the head one op a slot, and one that is no
blank is of this cluster, group and incarnation. A sealed one carries its own identity, and is what
the entry right above it was built on. -/
structure HeadersOk (xxh3 : Bytes → Nat) (cluster : Nat) (a : AdoptedView) : Prop where
  consecutive : ∀ i h, a.headers[i]? = some h → h.op + i = a.opHead
  belongs : ∀ h ∈ a.headers, dvcHeaderKind h = .valid →
    h.cluster = cluster ∧ h.group = a.group ∧ h.partitionIncarnation = a.partitionIncarnation
  identity : ∀ h ∈ a.headers, dvcHeaderKind h = .valid → h.checksum ≠ checksumUnsealed →
    h.identityChecksum xxh3 = h.checksum
  chained : ∀ i upper lower, a.headers[i]? = some upper → a.headers[i + 1]? = some lower →
    dvcHeaderKind upper = .valid → dvcHeaderKind lower = .valid →
    lower.checksum ≠ checksumUnsealed → upper.parent = lower.checksum

theorem headersOk_of_validate (hlen : a.headers.length ≤ dvcHeadersMax)
    (hfits : ∀ h ∈ a.headers, h.Fits) (h : a.validate xxh3 cluster view = true) :
    HeadersOk xxh3 cluster a := by
  have hslots := slotsOk_of_validate hlen hfits h
  refine ⟨fun i x hx => ?_, (AdoptedView.validate_eq_true h).2.2, fun x hx hkind hsealed => ?_,
    fun i upper lower => hslots.chain⟩
  · obtain ⟨c, hok, -⟩ := hslots.slot hx
    have hop := hok.op
    have hle := hok.le
    omega
  · obtain ⟨i, hi⟩ := getElem?_of_mem hx
    obtain ⟨c, hok, -⟩ := hslots.slot hi
    exact hok.sealed hkind hsealed

/-- **The superblock record codec.** A state is read back from its own encoding. A record of an
older layout gives the fields it has, without an adopted view and with the frontier for a
reservation it lacks. Whatever is accepted has `log_view` at most `view`, is read back from its own
encoding, and has headers that the suffix decoder would take. -/
theorem superblock_record_codec (xxh3 : Bytes → Nat) :
    (∀ s : VsrState, s.Fits → s.logView ≤ s.view →
      (∀ a ∈ s.adoptedView,
        a.headers.length ≤ dvcHeadersMax ∧ a.validate xxh3 s.cluster s.view = true) →
      tryFrom xxh3 s.toBytes = .ok s) ∧
    (∀ bytes : Bytes, field bytes 22 4 ≤ field bytes 18 4 →
      (bytes.length = encodedLen → tryFrom xxh3 bytes = .ok (ofFields bytes none)) ∧
      (bytes.length = encodedLenWithoutReservation →
        tryFrom xxh3 bytes =
          .ok { ofFields bytes none with
            offsetReserved := (ofFields bytes none).offsetFrontier })) ∧
    (∀ (bytes : Bytes) (s : VsrState), tryFrom xxh3 bytes = .ok s →
      s.logView ≤ s.view ∧ tryFrom xxh3 s.toBytes = .ok s ∧
        ∀ a ∈ s.adoptedView, HeadersOk xxh3 s.cluster a) := by
  refine ⟨fun s => tryFrom_toBytes, fun bytes hview => ⟨fun hlen => ?_, fun hlen => ?_⟩,
    fun bytes s h => ?_⟩
  · have hrecord : padded bytes = .ok bytes := by
      rw [padded, if_neg (by rw [hlen]; decide), if_pos hlen]
    exact tryFrom_legacy (by rw [hlen]; decide) hrecord hview
  · have hrecord : padded bytes = .ok (bytes ++ (bytes.drop 58).take 8) := by
      rw [padded, if_neg (by rw [hlen]; decide), if_neg (by rw [hlen]; decide), if_pos hlen]
    have hstate := ofFields_frontier hlen
    rw [tryFrom_legacy (by rw [hlen]; decide) hrecord, hstate]
    · rfl
    · -- the two views lie in front of the padding
      have hviews := congrArg (fun s : VsrState => (s.logView, s.view)) hstate
      simp only [ofFields, Prod.mk.injEq] at hviews
      rwa [hviews.1, hviews.2]
  · obtain ⟨hfits, hview, hadopted⟩ := fits_of_tryFrom h
    refine ⟨hview, tryFrom_toBytes hfits hview hadopted, fun a ha => ?_⟩
    exact headersOk_of_validate (hadopted a ha).1 (hfits.2 a ha).2 (hadopted a ha).2

/-! ## Headers that are not checked -/

def blankHeadRecord : VsrState where
  cluster := 5
  replicaId := 0
  replicaCount := 3
  view := 1
  logView := 1
  commitMax := 0
  checkpointOp := 0
  checkpointChecksum := 0
  offsetFrontier := 0
  offsetReserved := 0
  adoptedView := some {
    view := 1, group := 7, partitionIncarnation := 9, opHead := 1, commitMax := 0
    headers := [dvcBlank 1] }

/-- The upper entry was built on another one than the lower, which is unsealed. -/
def unsealedParentRecord : VsrState :=
  { blankHeadRecord with
    adoptedView := some {
      view := 1, group := 7, partitionIncarnation := 9, opHead := 2, commitMax := 0
      headers := [
        { command := .prepare, operation := .createStream, cluster := 5, group := 7,
          partitionIncarnation := 9, op := 2, timestamp := 2, parent := 3, size := 256 },
        { command := .prepare, operation := .createStream, cluster := 5, group := 7,
          partitionIncarnation := 9, op := 1, timestamp := 1, size := 256 }] } }

/-- A blank of cluster 0 is accepted in a record of another cluster and group, and so are two
entries that do not chain. -/
theorem foreign_blank_and_unchained_headers_accepted :
    (∀ xxh3, tryFrom xxh3 blankHeadRecord.toBytes = .ok blankHeadRecord) ∧
    (∃ a ∈ blankHeadRecord.adoptedView, ∃ h ∈ a.headers,
      h.cluster ≠ blankHeadRecord.cluster ∧ h.group ≠ a.group ∧
        h.partitionIncarnation ≠ a.partitionIncarnation) ∧
    (∀ xxh3, tryFrom xxh3 unsealedParentRecord.toBytes = .ok unsealedParentRecord) ∧
    (∃ a ∈ unsealedParentRecord.adoptedView, ∃ upper lower, a.headers = [upper, lower] ∧
      dvcHeaderKind upper = .valid ∧ dvcHeaderKind lower = .valid ∧
        upper.parent ≠ lower.checksum) := by
  refine ⟨fun xxh3 => tryFrom_toBytes (by decide +kernel) (by decide) ?_, ⟨_, rfl, dvcBlank 1, ?_⟩,
    fun xxh3 => tryFrom_toBytes (by decide +kernel) (by decide) ?_, ⟨_, rfl, _, _, rfl, ?_⟩⟩
  · rintro _ ⟨⟩
    exact ⟨by decide, validate_of_slotsOk (by decide) (by decide) (by decide) (by decide)
      ⟨(checkSlot_eq_ok xxh3).mp rfl, trivial⟩ (by decide)⟩
  · decide
  · rintro _ ⟨⟩
    exact ⟨by decide, validate_of_slotsOk (by decide) (by decide) (by decide) (by decide)
      ⟨(checkSlot_eq_ok xxh3).mp rfl, (checkSlot_eq_ok xxh3).mp rfl, trivial⟩ (by decide)⟩
  · decide

theorem unsealed_parent_record_read_back :
    tryFrom (fun _ => 0) unsealedParentRecord.toBytes = .ok unsealedParentRecord := by
  refine (superblock_record_codec _).1 _ (by decide +kernel) (by decide) ?_
  rintro _ ⟨⟩
  exact ⟨by decide, by decide +kernel⟩

end VsrState

end Iggy
