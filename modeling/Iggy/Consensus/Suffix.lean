import Iggy.Consensus.Dvc

/-!
# Suffix bodies on the wire: `encode_prepare_headers`, `dvc_suffix_decode`

A suffix travels as a plain run of 256-byte headers, head op first. The decoder checks every slot
against its op, its own identity checksum and the entry above it. `SlotsOk` says that of the header
list alone; `decodeFrom_ok` and `decodeFrom_encode` connect the two.

Line numbers are of `consensus/src/view_change_quorum.rs`.
-/

namespace Iggy

open List Lib PrepareHeader

/-- `DvcSuffixError` (279-301). -/
inductive DvcSuffixError
  | notHeaderMultiple (bodyLen : Nat)
  | tooManyEntries (count : Nat)
  | malformedHeader (index : Nat)
  | opOutOfOrder (index expected found : Nat)
  | bitsetBeyondSuffix (count : Nat)
  | checksumMismatch (index : Nat)
  | timestampNotDecreasing (index : Nat)
  | chainBreak (index : Nat)
  deriving DecidableEq

def encodePrepareHeaders (headers : List PrepareHeader) : Bytes :=
  headers.flatMap bytesOf

def DvcSuffix.encode (s : DvcSuffix) : Bytes := encodePrepareHeaders s.headers

variable (xxh3 : Bytes → Nat)

/-- The checks on a slot with a header (404-447); `child` is the nearest non-blank entry above. -/
def checkSlot (headOp index : Nat) (child : Option PrepareHeader) (header : PrepareHeader) :
    Except DvcSuffixError Unit :=
  match header.validate with
  | .error _ => .error (.malformedHeader index)
  | .ok () =>
    if headOp < index then .error (.opOutOfOrder index 0 header.op)
    else if header.op ≠ headOp - index then
      .error (.opOutOfOrder index (headOp - index) header.op)
    else if dvcHeaderKind header = .blank then .ok ()
    else if header.checksum ≠ checksumUnsealed ∧ header.identityChecksum xxh3 ≠ header.checksum then
      .error (.checksumMismatch index)
    else match child with
      | none => .ok ()
      | some child =>
        if child.timestamp ≤ header.timestamp then .error (.timestampNotDecreasing index)
        else if header.op + 1 = child.op ∧ header.checksum ≠ checksumUnsealed ∧
            child.parent ≠ header.checksum then .error (.chainBreak index)
        else .ok ()

def nextChild (child : Option PrepareHeader) (header : PrepareHeader) : Option PrepareHeader :=
  if dvcHeaderKind header = .valid then some header else child

def decodeFrom (body : Bytes) (headOp : Nat) :
    Nat → Nat → Option PrepareHeader → Except DvcSuffixError (List PrepareHeader)
  | 0, _, _ => .ok []
  | remaining + 1, index, child =>
    match tryFromBytes (chunkAt headerSize body index) with
    | none => .error (.malformedHeader index)
    | some header =>
      match checkSlot xxh3 headOp index child header with
      | .error e => .error e
      | .ok () =>
        match decodeFrom body headOp remaining (index + 1) (nextChild child header) with
        | .error e => .error e
        | .ok headers => .ok (header :: headers)

/-- `dvc_suffix_decode` (366-463). The bitsets are `u128`, so the check
against a bit past the suffix is vacuous for a full one. -/
def dvcSuffixDecode (body : Bytes) (headOp nackBitset presentBitset : Nat) :
    Except DvcSuffixError DvcSuffix :=
  let count := body.length / headerSize
  if body.length % headerSize ≠ 0 then .error (.notHeaderMultiple body.length)
  else if hcount : dvcHeadersMax < count then .error (.tooManyEntries count)
  else if hbits : 2 ^ count ≤ nackBitset ∨ 2 ^ count ≤ presentBitset then
    .error (.bitsetBeyondSuffix count)
  else match decodeFrom xxh3 body headOp count 0 none with
    | .error e => .error e
    | .ok headers =>
      if hlen : headers.length = count then
        .ok { headers, nackBitset, presentBitset
              len_le := hlen ▸ not_lt.mp hcount
              nack_lt := hlen ▸ not_le.mp fun h => hbits (.inl h)
              present_lt := hlen ▸ not_le.mp fun h => hbits (.inr h) }
      else .error (.tooManyEntries count)  -- not reached: one header per chunk

/-! ## What the decoder accepts -/

structure SlotOk (headOp index : Nat) (child : Option PrepareHeader) (h : PrepareHeader) :
    Prop where
  valid : h.validate = .ok ()
  le : index ≤ headOp
  op : h.op = headOp - index
  sealed : dvcHeaderKind h = .valid → h.checksum ≠ checksumUnsealed →
    h.identityChecksum xxh3 = h.checksum
  older : dvcHeaderKind h = .valid → ∀ c ∈ child, h.timestamp < c.timestamp
  chained : dvcHeaderKind h = .valid → ∀ c ∈ child, h.op + 1 = c.op →
    h.checksum ≠ checksumUnsealed → c.parent = h.checksum

def SlotsOk (headOp : Nat) : Nat → Option PrepareHeader → List PrepareHeader → Prop
  | _, _, [] => True
  | index, child, h :: hs =>
    SlotOk xxh3 headOp index child h ∧ SlotsOk headOp (index + 1) (nextChild child h) hs

variable {headOp index : Nat} {child : Option PrepareHeader} {hs : List PrepareHeader}

variable {xxh3} in
/-- Slot `i` passed against some entry above it, the previous slot unless that is blank. -/
theorem SlotsOk.slot {i : Nat} {x : PrepareHeader} (h : SlotsOk xxh3 headOp index child hs)
    (hx : hs[i]? = some x) :
    ∃ c, SlotOk xxh3 headOp (index + i) c x ∧
      ∀ p, 0 < i → hs[i - 1]? = some p → dvcHeaderKind p = .valid → c = some p := by
  induction hs generalizing index child i with
  | nil => simp at hx
  | cons y ys ih =>
    cases i with
    | zero =>
      cases hx
      exact ⟨child, h.1, fun p hlt => absurd hlt (lt_irrefl 0)⟩
    | succ i =>
      obtain ⟨c, hok, hprev⟩ := ih h.2 hx
      cases i with
      | zero =>
        -- the first slot below `y` is checked against `nextChild child y`
        cases ys with
        | nil => simp at hx
        | cons z zs =>
          cases hx
          refine ⟨_, h.2.1, fun p _ hp hkind => ?_⟩
          cases hp
          exact if_pos hkind
      | succ i =>
        refine ⟨c, ?_, fun p _ hp hkind => hprev p (Nat.succ_pos i) hp hkind⟩
        rwa [Nat.add_assoc, Nat.add_comm 1] at hok

variable {xxh3} in
theorem SlotsOk.chain {i : Nat} {upper lower : PrepareHeader} (h : SlotsOk xxh3 headOp 0 none hs)
    (hup : hs[i]? = some upper) (hlow : hs[i + 1]? = some lower)
    (hkup : dvcHeaderKind upper = .valid) (hklow : dvcHeaderKind lower = .valid)
    (hsealed : lower.checksum ≠ checksumUnsealed) : upper.parent = lower.checksum := by
  obtain ⟨c, hok, hprev⟩ := h.slot hlow
  obtain ⟨c', hokup, -⟩ := h.slot hup
  have hc : upper ∈ c := hprev upper (Nat.succ_pos i) hup hkup
  refine hok.chained hklow upper hc ?_ hsealed
  have h1 := hok.op
  have h2 := hok.le
  have h3 := hokup.op
  omega

variable {h : PrepareHeader}

theorem checkSlot_eq_ok :
    checkSlot xxh3 headOp index child h = .ok () ↔ SlotOk xxh3 headOp index child h := by
  have hkind : dvcHeaderKind h = .blank ∨ dvcHeaderKind h = .valid := by
    cases dvcHeaderKind h <;> simp
  unfold checkSlot
  cases hv : h.validate with
  | error e => exact iff_of_false (by simp) fun hs => by simp [hs.valid] at hv
  | ok u =>
    simp only
    by_cases hle : index ≤ headOp
    swap
    · simp only [not_le.mp hle, ↓reduceIte]
      exact iff_of_false (by simp) fun hs => hle hs.le
    by_cases hop : h.op = headOp - index
    swap
    · simp only [not_lt.mpr hle, hop, ↓reduceIte, ne_eq, not_false_eq_true]
      exact iff_of_false (by simp) fun hs => hop hs.op
    simp only [not_lt.mpr hle, ↓reduceIte, hop, ne_eq, not_true_eq_false]
    rcases hkind with hk | hk
    · simp only [hk, ↓reduceIte, true_iff]
      exact ⟨hv, hle, hop, by simp [hk], by simp [hk], by simp [hk]⟩
    by_cases hid : h.checksum ≠ checksumUnsealed → h.identityChecksum xxh3 = h.checksum
    swap
    · have hid' : h.checksum ≠ checksumUnsealed ∧ ¬h.identityChecksum xxh3 = h.checksum :=
        Classical.not_imp.mp hid
      simp only [hk, reduceCtorEq, ↓reduceIte, hid', not_false_eq_true, and_self]
      exact iff_of_false (by simp) fun hs => hid (hs.sealed hk)
    have hid' : ¬(¬h.checksum = checksumUnsealed ∧ ¬h.identityChecksum xxh3 = h.checksum) :=
      fun hc => hc.2 (hid hc.1)
    simp only [hk, reduceCtorEq, ↓reduceIte, hid']
    cases child with
    | none => exact iff_of_true rfl ⟨hv, hle, hop, fun _ => hid, by simp, by simp⟩
    | some c =>
      simp only
      constructor
      · intro hok
        split_ifs at hok with h1 h2
        refine ⟨hv, hle, hop, fun _ => hid, fun _ x hx => ?_, fun _ x hx hne hun => ?_⟩
        · cases hx; omega
        · cases hx
          by_contra hpar
          exact h2 ⟨hop ▸ hne, hun, hpar⟩
      · intro hs
        have h1 := hs.older hk c rfl
        rw [if_neg (not_le.mpr h1), if_neg]
        rintro ⟨hne, hun, hpar⟩
        exact hpar (hs.chained hk c rfl (hop ▸ hne) hun)

theorem decodeFrom_ok {body : Bytes} {remaining : Nat}
    (h : decodeFrom xxh3 body headOp remaining index child = .ok hs) :
    hs.length = remaining ∧ SlotsOk xxh3 headOp index child hs := by
  induction remaining generalizing index child hs with
  | zero =>
    simp only [decodeFrom, Except.ok.injEq] at h
    subst h
    exact ⟨rfl, trivial⟩
  | succ remaining ih =>
    unfold decodeFrom at h
    split at h
    · cases h
    rename_i header _
    split at h
    · cases h
    rename_i hcheck
    split at h
    · cases h
    rename_i rest hrest
    cases h
    obtain ⟨hlen, hok⟩ := ih hrest
    exact ⟨by rw [length_cons, hlen], (checkSlot_eq_ok xxh3).mp hcheck, hok⟩

variable {all : List PrepareHeader}

theorem tryFromBytes_encode (hfit : ∀ h ∈ all, h.Fits) (hget : all[index]? = some h) :
    tryFromBytes (chunkAt headerSize (encodePrepareHeaders all) index) = some h := by
  obtain ⟨hidx, rfl⟩ := List.getElem?_eq_some_iff.mp hget
  have hchunk : chunkAt headerSize (encodePrepareHeaders all) index = all[index].bytesOf :=
    chunkAt_flatMap _ _ _ (fun x hx => length_bytesOf (hfit x hx)) _ hidx
  rw [hchunk]
  exact tryFromBytes_bytesOf (hfit _ (getElem_mem hidx))

theorem getElem?_of_drop_eq_cons (htail : all.drop index = h :: hs) :
    all[index]? = some h ∧ all.drop (index + 1) = hs := by
  refine ⟨by rw [← head?_drop, htail]; rfl, ?_⟩
  rw [← tail_drop, htail, tail_cons]

/-- The induction runs over the slots still to read, so the body encodes a longer list whose tail
they are. -/
theorem decodeFrom_encode (hfit : ∀ h ∈ all, h.Fits) (htail : all.drop index = hs)
    (hok : SlotsOk xxh3 headOp index child hs) :
    decodeFrom xxh3 (encodePrepareHeaders all) headOp hs.length index child = .ok hs := by
  induction hs generalizing index child with
  | nil => rfl
  | cons h hs ih =>
    obtain ⟨hget, hrest⟩ := getElem?_of_drop_eq_cons htail
    rw [length_cons]
    unfold decodeFrom
    simp only [tryFromBytes_encode hfit hget, (checkSlot_eq_ok xxh3).mpr hok.1, ih hrest hok.2]

theorem eq_of_decodeFrom_encode {out : List PrepareHeader} (hfit : ∀ h ∈ all, h.Fits)
    (htail : all.drop index = hs)
    (hdec : decodeFrom xxh3 (encodePrepareHeaders all) headOp hs.length index child = .ok out) :
    out = hs := by
  induction hs generalizing index child out with
  | nil =>
    simp only [length_nil, decodeFrom, Except.ok.injEq] at hdec
    exact hdec.symm
  | cons h hs ih =>
    obtain ⟨hget, hrest⟩ := getElem?_of_drop_eq_cons htail
    rw [length_cons] at hdec
    unfold decodeFrom at hdec
    simp only [tryFromBytes_encode hfit hget] at hdec
    split at hdec
    · cases hdec
    split at hdec
    · cases hdec
    · rename_i rest hdecrest
      cases hdec
      rw [ih hrest hdecrest]

variable {s : DvcSuffix}

theorem dvcSuffixDecode_ok {body : Bytes} {nack present : Nat}
    (h : dvcSuffixDecode xxh3 body headOp nack present = .ok s) :
    s.nackBitset = nack ∧ s.presentBitset = present ∧ SlotsOk xxh3 headOp 0 none s.headers := by
  unfold dvcSuffixDecode at h
  simp only at h
  split_ifs at h
  split at h
  · cases h
  rename_i headers hdec
  split_ifs at h
  cases h
  exact ⟨rfl, rfl, (decodeFrom_ok xxh3 hdec).2⟩

variable {xxh3} in
theorem count_encode (hfit : ∀ h ∈ s.headers, h.Fits) :
    s.encode.length % headerSize = 0 ∧ s.encode.length / headerSize = s.headers.length := by
  have hlen : s.encode.length = s.headers.length * headerSize :=
    length_flatMap_const _ _ _ fun h hh => length_bytesOf (hfit h hh)
  exact ⟨by rw [hlen, Nat.mul_mod_left], by rw [hlen, Nat.mul_div_cancel _ (by decide)]⟩

/-- **Round trip of a suffix**: a receiver reads back the suffix a sender encoded. -/
theorem dvcSuffixDecode_encode (hfit : ∀ h ∈ s.headers, h.Fits)
    (hok : SlotsOk xxh3 headOp 0 none s.headers) :
    dvcSuffixDecode xxh3 s.encode headOp s.nackBitset s.presentBitset = .ok s := by
  obtain ⟨hmod, hcount⟩ := count_encode hfit
  have hdec : decodeFrom xxh3 s.encode headOp s.headers.length 0 none = .ok s.headers :=
    decodeFrom_encode xxh3 hfit rfl hok
  have hmax : ¬ dvcHeadersMax < s.headers.length := not_lt.mpr s.len_le
  have hbits : ¬ (2 ^ s.headers.length ≤ s.nackBitset ∨ 2 ^ s.headers.length ≤ s.presentBitset) :=
    not_or.mpr ⟨not_le.mpr s.nack_lt, not_le.mpr s.present_lt⟩
  unfold dvcSuffixDecode
  simp only [hcount, hmod, ne_eq, not_true_eq_false, ↓reduceIte, hmax, ↓reduceDIte, hbits, hdec]

/-- Whatever head op it is read against. -/
theorem headers_of_dvcSuffixDecode_encode {out : DvcSuffix} {nack present : Nat}
    (hfit : ∀ h ∈ s.headers, h.Fits)
    (hdec : dvcSuffixDecode xxh3 s.encode headOp nack present = .ok out) :
    out.headers = s.headers := by
  obtain ⟨-, hcount⟩ := count_encode hfit
  unfold dvcSuffixDecode at hdec
  simp only [hcount] at hdec
  split_ifs at hdec
  split at hdec
  · cases hdec
  rename_i headers hfrom
  split_ifs at hdec
  cases hdec
  exact eq_of_decodeFrom_encode xxh3 hfit rfl hfrom

end Iggy
