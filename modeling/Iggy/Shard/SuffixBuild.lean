import Iggy.Consensus.Suffix
import Iggy.Lib.Bits
import Mathlib.Order.Monotone.Basic
import Mathlib.Tactic.NormNum

/-!
# Building the `DoViewChange` suffix: `build_dvc_suffix`

A sender describes its ops from the head down to its commit point by laying the adopted view's
headers over its journal. The receiver decodes the result against the head op in the message header.
For a log on one hash chain the two agree as long as the adopted view does not reach past the
sender's own head: the builder raises its window to the view's head, while the message goes out with
the sender's.

Line numbers are of `shard/src/lib.rs`.
-/

namespace Iggy

open List Lib DvcSuffix

/-- `header_is_view_entry` (13182-13186). -/
def headerIsViewEntry (held canonical : PrepareHeader) : Bool :=
  held.checksum == checksumUnsealed || canonical.checksum == checksumUnsealed ||
    held.checksum == canonical.checksum

variable (viewHeaders : List PrepareHeader)

/-- `view_header_at` (13270-13278). A missing view is an empty list. -/
def viewHeaderAt (op : Nat) : Option PrepareHeader :=
  match viewHeaders.head? with
  | none => none
  | some head =>
    if head.op < op then none
    else match viewHeaders[head.op - op]? with
      | none => none
      | some header =>
        if header.op ≠ op ∨ dvcHeaderKind header = .blank then none else some header

/-- The op of the view's first header, `0` without one (12608-12610). -/
def viewHead : Nat := (viewHeaders.head?.map (·.op)).getD 0

/-- What one turn of the loop pushes and which bits it sets. -/
structure DvcSlot where
  header : PrepareHeader
  nacked : Bool
  present : Bool
  deriving DecidableEq

/-- One turn of the loop (12648-12688); `unproven` is an inclusive range. -/
def dvcSlot (commit : Nat) (headerAt : Nat → Option PrepareHeader)
    (viewHeaders : List PrepareHeader) (unproven : Nat × Nat) (entryOp : Nat) : DvcSlot :=
  match (headerAt entryOp).filter fun _ => !(unproven.1 ≤ entryOp && entryOp ≤ unproven.2) with
  | some header => ⟨header, false, true⟩
  | none =>
    match (viewHeaderAt viewHeaders entryOp).filter fun view =>
        entryOp ≤ commit || !(headerAt entryOp).any (headerIsViewEntry · view) with
    | some header => ⟨header, false, false⟩
    | none => ⟨dvcBlank entryOp, commit < entryOp && (headerAt entryOp).isNone, false⟩

variable (commit head : Nat)

/-- The lowest op of the window, clamped to `DVC_HEADERS_MAX` slots (12618-12640). -/
def windowLow : Nat :=
  if dvcHeadersMax < head - max commit 1 + 1 then head - dvcHeadersMax + 1 else max commit 1

def windowLen : Nat := head - windowLow commit head + 1

theorem windowLen_le : windowLen commit head ≤ dvcHeadersMax := by
  unfold windowLen windowLow dvcHeadersMax
  split_ifs <;> omega

theorem windowLen_le_head {commit head : Nat} (h : max commit 1 ≤ head) :
    windowLen commit head ≤ head := by
  unfold windowLen windowLow dvcHeadersMax
  split_ifs <;> omega

def windowSuffix (slot : Nat → DvcSlot) (commit head : Nat) : DvcSuffix where
  headers := (List.range (windowLen commit head)).map fun i => (slot (head - i)).header
  nackBitset := bitsOf (fun i => (slot (head - i)).nacked) (windowLen commit head)
  presentBitset := bitsOf (fun i => (slot (head - i)).present) (windowLen commit head)
  len_le := by
    rw [length_map, length_range]
    exact windowLen_le commit head
  nack_lt := by
    rw [length_map, length_range]
    exact bitsOf_lt
  present_lt := by
    rw [length_map, length_range]
    exact bitsOf_lt

/-- `build_dvc_suffix` (12584-12691). -/
def buildDvcSuffix (commit op : Nat) (headerAt : Nat → Option PrepareHeader)
    (viewHeaders : List PrepareHeader) (unproven : Nat × Nat) : DvcSuffix :=
  let head := max op (viewHead viewHeaders)
  if head = 0 then empty
  else if head < max commit 1 then empty
  else windowSuffix (dvcSlot commit headerAt viewHeaders unproven) commit head

/-! ## One slot -/

section Slot

variable {commit entryOp : Nat} {headerAt : Nat → Option PrepareHeader}
  {viewHeaders : List PrepareHeader} {unproven : Nat × Nat}

theorem viewHeaderAt_eq_some {op : Nat} {h : PrepareHeader}
    (hv : viewHeaderAt viewHeaders op = some h) :
    h ∈ viewHeaders ∧ h.op = op ∧ dvcHeaderKind h = .valid := by
  unfold viewHeaderAt at hv
  split at hv
  · cases hv
  split_ifs at hv
  split at hv
  · cases hv
  rename_i header hget
  split_ifs at hv with hbad
  cases hv
  rw [not_or, not_not] at hbad
  refine ⟨mem_of_getElem? hget, hbad.1, ?_⟩
  cases hk : dvcHeaderKind h with
  | blank => exact absurd hk hbad.2
  | valid => rfl

theorem dvcSlot_cases (commit : Nat) (headerAt : Nat → Option PrepareHeader)
    (viewHeaders : List PrepareHeader) (unproven : Nat × Nat) (entryOp : Nat) :
    (∃ h, headerAt entryOp = some h ∧
      dvcSlot commit headerAt viewHeaders unproven entryOp = ⟨h, false, true⟩) ∨
    (∃ h, viewHeaderAt viewHeaders entryOp = some h ∧
      dvcSlot commit headerAt viewHeaders unproven entryOp = ⟨h, false, false⟩) ∨
    dvcSlot commit headerAt viewHeaders unproven entryOp =
      ⟨dvcBlank entryOp, commit < entryOp && (headerAt entryOp).isNone, false⟩ := by
  unfold dvcSlot
  split
  · rename_i h hfilter
    exact .inl ⟨h, (Option.filter_eq_some_iff.mp hfilter).1, rfl⟩
  · split
    · rename_i h hfilter
      exact .inr (.inl ⟨h, (Option.filter_eq_some_iff.mp hfilter).1, rfl⟩)
    · exact .inr (.inr rfl)

theorem dvcSlot_nacked (hn : (dvcSlot commit headerAt viewHeaders unproven entryOp).nacked = true) :
    commit < entryOp ∧ headerAt entryOp = none ∧ viewHeaderAt viewHeaders entryOp = none := by
  have hblank : commit < entryOp ∧ headerAt entryOp = none := by
    rcases dvcSlot_cases commit headerAt viewHeaders unproven entryOp with ⟨h, -, heq⟩ | ⟨h, -, heq⟩ | heq
    · simp [heq] at hn
    · simp [heq] at hn
    · simpa [heq] using hn
  refine ⟨hblank.1, hblank.2, ?_⟩
  by_contra hsome
  obtain ⟨h, hv⟩ := Option.ne_none_iff_exists'.mp hsome
  -- with no resident entry the adopted header passes its filter, so the slot is not blank
  simp [dvcSlot, hblank.2, hv, Option.filter] at hn

theorem dvcSlot_present
    (hp : (dvcSlot commit headerAt viewHeaders unproven entryOp).present = true) :
    headerAt entryOp = some (dvcSlot commit headerAt viewHeaders unproven entryOp).header := by
  rcases dvcSlot_cases commit headerAt viewHeaders unproven entryOp with ⟨h, hres, heq⟩ | ⟨h, -, heq⟩ | heq
  · rw [heq]
    exact hres
  · simp [heq] at hp
  · simp [heq] at hp

end Slot

/-! ## Logs on one chain -/

/-- `h` is a sealed prepare of the chain that has checksum `checksumAt op` and timestamp
`timestampAt op` at each op. A restamped `view` does not change its identity. -/
structure OnChain (xxh3 : Bytes → Nat) (checksumAt timestampAt : Nat → Nat)
    (h : PrepareHeader) : Prop where
  fits : h.Fits
  valid : h.validate = .ok ()
  sealed : h.checksum ≠ checksumUnsealed
  identity : h.identityChecksum xxh3 = h.checksum
  checksum : h.checksum = checksumAt h.op
  parent : ∀ below, h.op = below + 1 → h.parent = checksumAt below
  timestamp : h.timestamp = timestampAt h.op

/-- What a sender describes: a journal and an adopted view on one hash chain with strictly
increasing timestamps. The view's headers run down from its head, as `AdoptedView::validate`
checks when they are adopted. -/
structure ChainedLog (xxh3 : Bytes → Nat) where
  checksumAt : Nat → Nat
  timestampAt : Nat → Nat
  headerAt : Nat → Option PrepareHeader
  viewHeaders : List PrepareHeader
  increasing : StrictMono timestampAt
  resident : ∀ op h, headerAt op = some h → h.op = op ∧ OnChain xxh3 checksumAt timestampAt h
  adopted : ∀ h ∈ viewHeaders, dvcHeaderKind h = .valid → OnChain xxh3 checksumAt timestampAt h
  adopted_fits : ∀ h ∈ viewHeaders, h.Fits
  descending : ∀ i h, viewHeaders[i]? = some h → h.op + i = viewHead viewHeaders

namespace ChainedLog

variable {xxh3 : Bytes → Nat} (log : ChainedLog xxh3) (commit op : Nat) (unproven : Nat × Nat)

def suffix : DvcSuffix := buildDvcSuffix commit op log.headerAt log.viewHeaders unproven

def slotHeader (entryOp : Nat) : PrepareHeader :=
  (dvcSlot commit log.headerAt log.viewHeaders unproven entryOp).header

variable {log commit op unproven}

theorem slotHeader_cases (log : ChainedLog xxh3) (commit : Nat) (unproven : Nat × Nat)
    (entryOp : Nat) :
    log.slotHeader commit unproven entryOp = dvcBlank entryOp ∨
      (log.slotHeader commit unproven entryOp).op = entryOp ∧
        OnChain xxh3 log.checksumAt log.timestampAt (log.slotHeader commit unproven entryOp) := by
  unfold slotHeader
  rcases dvcSlot_cases commit log.headerAt log.viewHeaders unproven entryOp with ⟨h, hres, heq⟩ | ⟨h, hview, heq⟩ | heq
  · rw [heq]
    exact .inr (log.resident entryOp h hres)
  · obtain ⟨hmem, hop, hkind⟩ := viewHeaderAt_eq_some hview
    rw [heq]
    exact .inr ⟨hop, log.adopted h hmem hkind⟩
  · rw [heq]
    exact .inl rfl

theorem slotHeader_op (entryOp : Nat) : (log.slotHeader commit unproven entryOp).op = entryOp := by
  rcases log.slotHeader_cases commit unproven entryOp with h | h
  · rw [h]
    rfl
  · exact h.1

theorem slotOk_slotHeader {head index : Nat} {child : Option PrepareHeader} (hle : index ≤ head)
    (hchild : ∀ c ∈ child, OnChain xxh3 log.checksumAt log.timestampAt c ∧ head - index < c.op) :
    SlotOk xxh3 head index child (log.slotHeader commit unproven (head - index)) := by
  rcases log.slotHeader_cases commit unproven (head - index)
    with hblank | ⟨hop, hon⟩
  · have hkind : dvcHeaderKind (dvcBlank (head - index)) ≠ .valid := by
      rw [dvcHeaderKind_dvcBlank]
      decide
    rw [hblank]
    exact
      { valid := PrepareHeader.validate_eq_ok.mpr ⟨rfl, rfl, rfl⟩
        le := hle
        op := rfl
        sealed := fun hk => absurd hk hkind
        older := fun hk => absurd hk hkind
        chained := fun hk => absurd hk hkind }
  · refine ⟨hon.valid, hle, hop, fun _ _ => hon.identity, fun _ c hc => ?_, fun _ c hc hnext _ => ?_⟩
    · obtain ⟨honc, hlt⟩ := hchild c hc
      rw [hon.timestamp, honc.timestamp, hop]
      exact log.increasing hlt
    · obtain ⟨honc, -⟩ := hchild c hc
      rw [honc.parent _ hnext.symm, hon.checksum]

/-- **The window passes the decoder**, slot by slot: the entry carried down is always one of the
chain above the next slot. -/
theorem slotsOk_window {head n index : Nat} {child : Option PrepareHeader} (hle : index + n ≤ head)
    (hchild : ∀ c ∈ child, OnChain xxh3 log.checksumAt log.timestampAt c ∧ head - index < c.op) :
    SlotsOk xxh3 head index child
      ((List.range n).map fun i => log.slotHeader commit unproven (head - (index + i))) := by
  induction n generalizing index child with
  | zero => exact trivial
  | succ n ih =>
    rw [range_succ_eq_map, map_cons, map_map, Nat.add_zero]
    refine ⟨slotOk_slotHeader (by omega) hchild, ?_⟩
    have htail : (fun i => log.slotHeader commit unproven (head - (index + i))) ∘ Nat.succ =
        fun i => log.slotHeader commit unproven (head - (index + 1 + i)) := by
      funext i
      rw [Function.comp_apply, Nat.succ_eq_add_one, Nat.add_assoc index 1 i, Nat.add_comm 1 i]
    rw [htail]
    refine ih (by omega) fun c hc => ?_
    unfold nextChild at hc
    split_ifs at hc with hkind
    · cases hc
      rcases log.slotHeader_cases commit unproven (head - index)
        with hblank | ⟨hop, hon⟩
      · rw [hblank, dvcHeaderKind_dvcBlank] at hkind
        cases hkind
      · exact ⟨hon, by omega⟩
    · obtain ⟨hon, hlt⟩ := hchild c hc
      exact ⟨hon, by omega⟩

/-! ## Sender and receiver -/

theorem fits_slotHeader {entryOp : Nat} (hop : entryOp < 2 ^ 64) :
    (log.slotHeader commit unproven entryOp).Fits := by
  rcases log.slotHeader_cases commit unproven entryOp with h | h
  · rw [h]
    simp only [PrepareHeader.Fits, FieldsFit, prepareWidths, PrepareHeader.fields, dvcBlank,
      forall₂_cons, forall₂_nil_left_iff]
    norm_num
    exact ⟨by decide, hop, by decide⟩
  · exact h.2.fits

theorem viewHead_lt : viewHead log.viewHeaders < 2 ^ 64 := by
  unfold viewHead
  cases hh : log.viewHeaders.head? with
  | none => decide
  | some h =>
    have hfit := log.adopted_fits h (mem_of_mem_head? hh)
    simp only [PrepareHeader.Fits, FieldsFit, prepareWidths, PrepareHeader.fields,
      forall₂_cons] at hfit
    simp only [Option.map_some, Option.getD_some]
    omega

theorem suffix_eq_window (h : max commit 1 ≤ max op (viewHead log.viewHeaders)) :
    log.suffix commit op unproven = windowSuffix
      (dvcSlot commit log.headerAt log.viewHeaders unproven) commit
      (max op (viewHead log.viewHeaders)) := by
  unfold suffix buildDvcSuffix
  simp only
  rw [if_neg (by omega), if_neg (by omega)]

theorem suffix_eq_empty (h : max op (viewHead log.viewHeaders) < max commit 1) :
    log.suffix commit op unproven = empty := by
  unfold suffix buildDvcSuffix
  simp only
  split_ifs
  · rfl
  · rfl

theorem fits_suffix (hop : op < 2 ^ 64) : ∀ h ∈
    (log.suffix commit op unproven).headers, h.Fits := by
  by_cases hwin : max commit 1 ≤ max op (viewHead log.viewHeaders)
  · rw [suffix_eq_window hwin]
    intro h hmem
    obtain ⟨i, -, rfl⟩ := mem_map.mp hmem
    have := log.viewHead_lt
    exact fits_slotHeader (by omega)
  · rw [suffix_eq_empty (not_le.mp hwin)]
    intro h hmem
    cases hmem

/-- What the receiver of the suffix may rely on, reading it against the head op `op`. -/
structure Agrees (log : ChainedLog xxh3) (commit op : Nat) (unproven : Nat × Nat) : Prop where
  decodes : dvcSuffixDecode xxh3 (log.suffix commit op unproven).encode op
    (log.suffix commit op unproven).nackBitset (log.suffix commit op unproven).presentBitset =
      .ok (log.suffix commit op unproven)
  slot_op : ∀ i h, (log.suffix commit op unproven).headers[i]? = some h → i ≤ op ∧ h.op = op - i
  nacked : ∀ i, (log.suffix commit op unproven).nackBitset.testBit i = true →
    commit < op - i ∧ log.headerAt (op - i) = none ∧
      ∀ h ∈ log.viewHeaders, dvcHeaderKind h = .valid → h.op ≠ op - i
  present : ∀ i, (log.suffix commit op unproven).presentBitset.testBit i = true →
    ∃ h, log.headerAt (op - i) = some h ∧ (log.suffix commit op unproven).headers[i]? = some h

theorem no_adopted_of_viewHeaderAt {entryOp : Nat}
    (hnone : viewHeaderAt log.viewHeaders entryOp = none) :
    ∀ h ∈ log.viewHeaders, dvcHeaderKind h = .valid → h.op ≠ entryOp := by
  rintro h hmem hkind rfl
  obtain ⟨i, hi⟩ := mem_iff_getElem?.mp hmem
  have hdesc := log.descending i h hi
  unfold viewHeaderAt at hnone
  cases hh : log.viewHeaders.head? with
  | none =>
    rw [head?_eq_none_iff] at hh
    rw [hh] at hmem
    cases hmem
  | some head =>
    have hhead : viewHead log.viewHeaders = head.op := by rw [viewHead, hh]; rfl
    have hidx : head.op - h.op = i := by omega
    simp only [hh, hidx, hi, show ¬ head.op < h.op by omega, ↓reduceIte, hkind] at hnone
    simp at hnone

theorem agrees_of_empty (h : max op (viewHead log.viewHeaders) < max commit 1) :
    log.Agrees commit op unproven := by
  have hempty : log.suffix commit op unproven = empty := suffix_eq_empty h
  refine ⟨?_, ?_, ?_, ?_⟩ <;> rw [hempty]
  · exact dvcSuffixDecode_encode xxh3 (fun x hx => by cases hx) trivial
  · intro i x hx
    simp [empty] at hx
  · intro i hi
    simp [empty] at hi
  · intro i hi
    simp [empty] at hi

theorem agrees_of_head (hop : op < 2 ^ 64) (hview : viewHead log.viewHeaders ≤ op)
    (hwin : max commit 1 ≤ op) : log.Agrees commit op unproven := by
  have hhead : max op (viewHead log.viewHeaders) = op := max_eq_left hview
  have hfit : ∀ h ∈ (log.suffix commit op unproven).headers, h.Fits := fits_suffix hop
  have heq : log.suffix commit op unproven = windowSuffix
      (dvcSlot commit log.headerAt log.viewHeaders unproven) commit op := by
    rw [suffix_eq_window (by rw [hhead]; exact hwin), hhead]
  have hlen := windowLen_le_head hwin
  have hslots : SlotsOk xxh3 op 0 none (log.suffix commit op unproven).headers := by
    have hwindow : SlotsOk xxh3 op 0 none ((List.range (windowLen commit op)).map fun i =>
        log.slotHeader commit unproven (op - (0 + i))) :=
      slotsOk_window (by omega) (by simp)
    simp only [Nat.zero_add] at hwindow
    rw [heq]
    exact hwindow
  have hget : ∀ i, i < windowLen commit op → (log.suffix commit op unproven).headers[i]? =
      some (log.slotHeader commit unproven (op - i)) := by
    intro i hi
    rw [heq, windowSuffix, getElem?_map, getElem?_range hi]
    rfl
  refine ⟨dvcSuffixDecode_encode xxh3 hfit hslots, fun i h hi => ?_, fun i hi => ?_, fun i hi => ?_⟩
  · obtain ⟨c, hok, -⟩ := hslots.slot hi
    have h1 := hok.le
    have h2 := hok.op
    omega
  · rw [heq, windowSuffix, testBit_bitsOf, Bool.and_eq_true] at hi
    obtain ⟨hc, hres, hview⟩ := dvcSlot_nacked hi.2
    exact ⟨hc, hres, no_adopted_of_viewHeaderAt hview⟩
  · have hbit : (windowSuffix (dvcSlot commit log.headerAt log.viewHeaders unproven) commit
        op).presentBitset.testBit i = true := heq ▸ hi
    rw [windowSuffix, testBit_bitsOf, Bool.and_eq_true, decide_eq_true_eq] at hbit
    exact ⟨_, dvcSlot_present hbit.2, hget i hbit.1⟩

theorem rejected_of_view_past_head (hop : op < 2 ^ 64) (hview : op < viewHead log.viewHeaders)
    (hwin : max commit 1 ≤ viewHead log.viewHeaders) (nack present : Nat) (out : DvcSuffix) :
    dvcSuffixDecode xxh3 (log.suffix commit op unproven).encode op nack present ≠ .ok out := by
  intro hdec
  have hhead : max op (viewHead log.viewHeaders) = viewHead log.viewHeaders :=
    max_eq_right hview.le
  have heq : log.suffix commit op unproven = windowSuffix
      (dvcSlot commit log.headerAt log.viewHeaders unproven) commit
      (viewHead log.viewHeaders) := by
    rw [suffix_eq_window (by rw [hhead]; exact hwin), hhead]
  have hout := headers_of_dvcSuffixDecode_encode xxh3 (log.fits_suffix hop) hdec
  obtain ⟨-, -, hslots⟩ := dvcSuffixDecode_ok xxh3 hdec
  have hfirst : out.headers[0]? =
      some (log.slotHeader commit unproven (viewHead log.viewHeaders)) := by
    rw [hout, heq, windowSuffix, getElem?_map, getElem?_range (by unfold windowLen; omega)]
    rfl
  obtain ⟨c, hok, -⟩ := hslots.slot hfirst
  have h1 := hok.op
  rw [slotHeader_op] at h1
  omega

/-- **Sender and receiver agree exactly when the adopted view stays at or below the sender's
head**, or lies below the window so that nothing is described. -/
theorem suffix_agrees_iff (xxh3 : Bytes → Nat) (log : ChainedLog xxh3) (commit op : Nat)
    (unproven : Nat × Nat) (hop : op < 2 ^ 64) :
    log.Agrees commit op unproven ↔
      viewHead log.viewHeaders ≤ op ∨ viewHead log.viewHeaders < max commit 1 := by
  constructor
  · intro h
    by_contra hcon
    rw [not_or, Nat.not_le, not_lt] at hcon
    exact rejected_of_view_past_head hop hcon.1 hcon.2 _ _ _ h.decodes
  · intro h
    by_cases hwin : max op (viewHead log.viewHeaders) < max commit 1
    · exact agrees_of_empty hwin
    · exact agrees_of_head hop (by omega) (by omega)

/-- A replica that holds nothing and adopted a view with one header, at op 2. -/
def oneAdopted : ChainedLog fun _ => 5 where
  checksumAt _ := 5
  timestampAt op := op
  headerAt _ := none
  viewHeaders := [{ command := .prepare, op := 2, checksum := 5, parent := 5, timestamp := 2 }]
  increasing := strictMono_id
  resident := by simp
  adopted := by
    intro h hmem _
    obtain rfl := mem_singleton.mp hmem
    exact ⟨by decide, by decide, by decide, rfl, rfl, fun _ _ => rfl, rfl⟩
  adopted_fits := by decide
  descending := by
    intro i h hi
    cases i with
    | zero => cases hi; rfl
    | succ i => simp at hi

theorem suffix_agrees_iff_at_view_head : oneAdopted.Agrees 1 2 (0, 0) :=
  (suffix_agrees_iff _ oneAdopted 1 2 (0, 0) (by decide)).mpr (.inl (by decide))

/-- The same replica with its own head at op 1, as a state transfer installed below the adopted
view leaves it: no receiver can read the suffix it sends. -/
theorem suffix_unreadable_below_view_head :
    ¬ ∃ out, dvcSuffixDecode (fun _ => 5) (oneAdopted.suffix 1 1 (0, 0)).encode 1
      (oneAdopted.suffix 1 1 (0, 0)).nackBitset (oneAdopted.suffix 1 1 (0, 0)).presentBitset =
        .ok out := by
  rintro ⟨out, hdec⟩
  exact rejected_of_view_past_head (by decide) (by decide) (by decide) _ _ out hdec

end ChainedLog

end Iggy
