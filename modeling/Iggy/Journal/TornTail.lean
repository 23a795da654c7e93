import Mathlib.Algebra.Order.BigOperators.Group.List
import Iggy.Journal.PrepareReopen

/-!
# Repair of a torn tail

A file may end in the middle of an append: the entry is there up to some byte, and after it may come
zeros the filesystem had already reserved (`Torn`). The header keeps `size` before `command`, so a
header that lost its size also lost its command: the scan never takes the torn entry for a complete
one, and cuts it off (`scanLoop_torn`). Whatever the file, a cut removes no byte from which a
structurally complete entry could be read, the first one apart (`scanLoop_cut`). The search for such
an entry reads the file in overlapping windows, which leave no offset out
(`findCompleteEntry_eq_probe`).
-/

namespace Iggy

open List Lib PrepareHeader Prod

/-! ## Where a header keeps its size and its command -/

theorem PrepareHeader.size_command_of_tryFromBytes {bs : Bytes} {h : PrepareHeader}
    (hread : tryFromBytes bs = some h) :
    h.size = leNat ((bs.drop 48).take 4) ∧ h.command.code = leNat ((bs.drop 60).take 1) := by
  have hfields := fields_of_tryFromBytes hread
  simp only [fields, prepareWidths, unpackFields, drop_drop, Nat.reduceAdd, List.cons.injEq]
    at hfields
  obtain ⟨-, -, -, hsize, -, -, hcommand, -⟩ := hfields
  exact ⟨hsize, hcommand⟩

theorem leNat_replicate_zero (k : Nat) : leNat (List.replicate k 0) = 0 := by
  induction k with
  | zero => rfl
  | succ k ih => simp [replicate_succ, leNat, ih]

namespace PrepareJournal

/-! ## Complete entries by structure alone -/

variable (file : Bytes)

def completeAt (pos : Nat) : Bool :=
  (validEntryHeader file pos).any fun header => pos + header.size ≤ file.length

theorem completeAt_append (before tail : Bytes) (k : Nat) :
    completeAt (before ++ tail) (before.length + k) = completeAt tail k := by
  simp only [completeAt, validEntryHeader, drop_length_add_append, length_append,
    Nat.add_assoc, Nat.add_le_add_iff_left]

theorem room_of_completeAt {file : Bytes} {pos : Nat} (h : completeAt file pos) :
    pos + headerSize ≤ file.length := by
  obtain ⟨header, hheader, -⟩ := Option.any_eq_true _ _ |>.mp h
  have hread := (Option.filter_eq_some_iff.mp hheader).1
  unfold tryFromBytes at hread
  split_ifs at hread with hlen
  simp only [length_take, length_drop, ne_eq, not_not] at hlen
  have : 0 < headerSize := by decide
  omega

theorem findCompleteEntry_eq_none {file : Bytes} {start : Nat} :
    findCompleteEntry file start = none ↔ ∀ pos, start < pos → completeAt file pos = false := by
  rw [findCompleteEntry, find?_eq_none]
  constructor
  · intro h pos hpos
    refine Bool.eq_false_iff.mpr fun hcomplete => h pos ?_ hcomplete
    have := room_of_completeAt hcomplete
    exact mem_range'_1.mpr ⟨hpos, by omega⟩
  · intro h pos hpos
    exact Bool.eq_false_iff.mp (h pos (mem_range'_1.mp hpos).1)

/-! ### The windows of the search -/

def probeStride : Nat := 64 * 1024

def commandOffset : Nat := 60

/-- The command byte first, then the header. -/
def probeAt (pos : Nat) : Bool :=
  (file.getD (pos + commandOffset) 0).toNat == Command.prepare.code && completeAt file pos

/-- Every start of the window at `base`, then the next window. -/
def probe (file : Bytes) : Nat → Nat → Option Nat
  | 0, _ => none
  | fuel + 1, base =>
    if base + headerSize ≤ file.length then
      let want := min (file.length - base) (probeStride + headerSize)
      let lastStart := want - headerSize
      ((List.range' base (lastStart + 1)).find? (probeAt file)).or
        (probe file fuel (base + lastStart + 1))
    else none

theorem probeAt_eq (pos : Nat) : probeAt file pos = completeAt file pos := by
  refine Bool.and_eq_right_iff_imp.mpr fun hcomplete => ?_
  have hroom := room_of_completeAt hcomplete
  obtain ⟨header, hheader, -⟩ := Option.any_eq_true _ _ |>.mp hcomplete
  obtain ⟨hread, hvalid⟩ := Option.filter_eq_some_iff.mp hheader
  have hcode := (size_command_of_tryFromBytes hread).2
  simp only [validEntrySizeAndCommand, Bool.and_eq_true, beq_iff_eq] at hvalid
  have hlt : pos + 60 < file.length := Nat.lt_of_lt_of_le (by simp [headerSize]) hroom
  rw [hvalid.1.1, drop_take, take_take, drop_drop, drop_eq_getElem_cons hlt] at hcode
  have hbyte : ∀ (b : UInt8) rest, leNat ((b :: rest).take (min 1 (headerSize - 60))) = b.toNat :=
    fun _ _ => rfl
  rw [commandOffset, getD_eq_getElem?_getD, getElem?_eq_getElem hlt, hcode, hbyte]
  exact beq_self_eq_true _

/-- The entry up to some byte, and zeros after it. -/
def Torn (tail : Bytes) : Prop :=
  ∃ bytes header kept zeros, Framed bytes header ∧ kept + zeros < bytes.length ∧
    tail = bytes.take kept ++ List.replicate zeros 0

theorem Torn.incomplete {tail : Bytes} {header : PrepareHeader} (h : Torn tail)
    (hread : tryFromBytes (tail.take headerSize) = some header) :
    header.command ≠ .prepare ∨ tail.length < header.size := by
  obtain ⟨bytes, written, kept, zeros, hframed, hlt, rfl⟩ := h
  obtain ⟨hsize, hcommand⟩ := size_command_of_tryFromBytes hread
  have hkept : (bytes.take kept).length = kept := by
    rw [length_take]
    omega
  by_cases hwhole : kept ≤ 60
  · -- the zeros reach back to the command byte
    left
    rw [drop_take, take_take, drop_append, drop_eq_nil_of_le (by omega),
      nil_append, drop_replicate, take_replicate, leNat_replicate_zero] at hcommand
    rintro hprepare
    rw [hprepare] at hcommand
    exact nomatch hcommand
  · -- the size, which stands before the command, is the one that was written
    right
    have hwritten := (size_command_of_tryFromBytes hframed.parsed).1
    have hsame : header.size = written.size := by
      rw [hsize, hwritten, drop_take, drop_take, take_take, take_take,
        drop_append_of_le_length (by omega), take_append_of_le_length, drop_take,
        take_take]
      · congr 2
        simp only [headerSize]
        omega
      · rw [length_drop, hkept]
        simp only [headerSize]
        omega
    rw [hsame, ← hframed.exact, length_append, hkept, length_replicate]
    exact hlt

theorem Torn.length_le {tail : Bytes} (h : Torn tail) : tail.length ≤ maxEntrySize := by
  obtain ⟨bytes, header, kept, zeros, hframed, hlt, rfl⟩ := h
  have hvalid := hframed.structural
  simp only [validEntrySizeAndCommand, Bool.and_eq_true, decide_eq_true_eq] at hvalid
  rw [length_append, length_take, length_replicate]
  have := hframed.exact
  omega

section Cut

variable {xxh3 : Bytes → Nat} {n snapshotOp : Nat} {s : ScanState}

theorem scanLoop_torn {before tail : Bytes} (htorn : Torn tail)
    (hinside : ∀ k, 1 ≤ k → completeAt tail k = false) (hpos : s.pos = before.length) (fuel : Nat) :
    scanLoop xxh3 n snapshotOp (before ++ tail) (fuel + 1) s = .ok (s, before) := by
  have hnone : findCompleteEntry (before ++ tail) before.length = none := by
    rw [findCompleteEntry_eq_none]
    intro pos hlt
    obtain ⟨k, rfl⟩ := Nat.exists_eq_add_of_lt hlt
    rw [Nat.add_assoc, completeAt_append, hinside _ (by omega)]
  have hfit : ¬ maxEntrySize < (before ++ tail).length - before.length := by
    rw [length_append, Nat.add_sub_cancel_left]
    exact not_lt.mpr htorn.length_le
  have hcut : ∀ reason, truncateOrFail (before ++ tail) before.length reason = .ok before := by
    intro reason
    unfold truncateOrFail
    split
    case h_1 hsome => exact nomatch hnone.symm.trans hsome
    case h_2 => exact (if_neg hfit).trans (congrArg _ (take_left ..))
  have hentry : ∃ reason, scanEntry xxh3 n snapshotOp (before ++ tail) s = .ok (.cut reason) := by
    unfold scanEntry
    rw [hpos, drop_left]
    cases hread : tryFromBytes (tail.take headerSize) with
    | none => exact ⟨_, rfl⟩
    | some header =>
      simp only
      obtain hcommand | hshort := htorn.incomplete hread
      · exact ⟨_, if_pos (by simp [validEntrySizeAndCommand, hcommand])⟩
      · have hover : (before ++ tail).length < before.length + header.size := by
          rw [length_append]
          exact Nat.add_lt_add_left hshort _
        by_cases hvalid : validEntrySizeAndCommand header
        · exact ⟨_, (if_neg (not_not.mpr hvalid)).trans (if_pos hover)⟩
        · exact ⟨_, if_pos hvalid⟩
  rw [scanLoop]
  split
  · obtain ⟨reason, hentry⟩ := hentry
    rw [hentry]
    simp only [hpos, hcut, Except.map]
  · split
    · rw [hpos, hcut]
      rfl
    case isFalse hfull =>
      rw [hpos, length_append] at hfull
      rw [eq_nil_of_length_eq_zero (show tail.length = 0 by omega), append_nil]

theorem scanLoop_cut {file : Bytes} {fuel : Nat} {out : ScanState × Bytes}
    (h : scanLoop xxh3 n snapshotOp file fuel s = .ok out) :
    out.2 = file ∨ ∃ pos < file.length, out.2 = file.take pos ∧
      ∀ p, pos < p → completeAt file p = false := by
  have hcut : ∀ {s : ScanState} {reason}, s.pos < file.length →
      (truncateOrFail file s.pos reason).map (fun file => (s, file)) = .ok out →
      ∃ pos < file.length, out.2 = file.take pos ∧ ∀ p, pos < p → completeAt file p = false := by
    intro s reason hpos h
    obtain ⟨file', hfile, rfl⟩ := map_eq_ok.mp h
    unfold truncateOrFail at hfile
    split at hfile
    · cases hfile
    rename_i hnone
    split_ifs at hfile
    cases hfile
    exact ⟨s.pos, hpos, rfl, findCompleteEntry_eq_none.mp hnone⟩
  induction fuel generalizing s with
  | zero =>
    cases h
    exact .inl rfl
  | succ fuel ih =>
    rw [scanLoop] at h
    split at h
    case isTrue hroom =>
      split at h
      · cases h
      · exact .inr (hcut (Nat.lt_of_lt_of_le (Nat.lt_add_of_pos_right (by decide)) hroom) h)
      · exact ih h
    · split at h
      case isTrue hpos => exact .inr (hcut hpos h)
      case isFalse =>
        cases h
        exact .inl rfl

end Cut

/-! ## Opening -/

/-- A refusal leaves it alone. -/
def fileAfterOpen (xxh3 : Bytes → Nat) (file : Bytes) (snapshotOp slotCount : Nat) :
    Bytes :=
  match openWithSlots xxh3 file snapshotOp slotCount with
  | .ok j => j.storage
  | .error _ => file

/-- No entry takes the slot of an earlier one of another op that is above the snapshot. -/
def CollisionFree (n snapshotOp : Nat) (hs : List PrepareHeader) : Prop :=
  hs.Pairwise fun a b => slotForOp a.op n = slotForOp b.op n → a.op = b.op ∨ a.op ≤ snapshotOp

instance (n snapshotOp : Nat) (hs : List PrepareHeader) :
    Decidable (CollisionFree n snapshotOp hs) :=
  inferInstanceAs (Decidable (List.Pairwise _ _))

/-- Complete entries, with their headers, that pass every check of the scan but the one of the
slots. -/
structure Entries (xxh3 : Bytes → Nat) (es : List (Bytes × PrepareHeader)) : Prop where
  intact : ∀ e ∈ es, Intact xxh3 e.1 e.2
  linked : (es.map snd).IsChain Linked

section Open

variable {xxh3 : Bytes → Nat} {n snapshotOp : Nat} {pre post : List (Bytes × PrepareHeader)}

theorem length_flatMap_entries (h : ∀ e ∈ pre, Intact xxh3 e.1 e.2) :
    (pre.flatMap Prod.fst).length = totalSize (pre.map Prod.snd) := by
  rw [length_flatMap, totalSize, List.map_map]
  exact congrArg List.sum (map_congr_left fun e he => (h e he).exact)

theorem scanLoop_entries (pre : List (Bytes × PrepareHeader)) {tail : Bytes} {fuel : Nat}
    (hfuel : post.length < fuel) (hent : Entries xxh3 (pre ++ post))
    (hfree : CollisionFree n snapshotOp ((pre ++ post).map snd)) (htorn : Torn tail)
    (hinside : ∀ k, 1 ≤ k → completeAt tail k = false) :
    scanLoop xxh3 n snapshotOp ((pre ++ post).flatMap fst ++ tail) fuel
        (scanned n (pre.map snd)) =
      .ok (scanned n ((pre ++ post).map snd), (pre ++ post).flatMap fst) := by
  have hpre : ∀ e ∈ pre, Intact xxh3 e.1 e.2 := fun e he => hent.intact e (by simp [he])
  have hpos := (scanned_spec n (pre.map snd)).2.2.1
  rw [← length_flatMap_entries hpre] at hpos
  obtain ⟨fuel, rfl⟩ : ∃ f, fuel = f + 1 := ⟨fuel - 1, by omega⟩
  induction post generalizing pre fuel with
  | nil =>
    rw [append_nil]
    exact scanLoop_torn htorn hinside hpos fuel
  | cons e post ih =>
    have he := hent.intact e (by simp)
    have hslots : CollisionFree n snapshotOp (pre.map snd ++ e.2 :: post.map snd) := by
      rwa [map_append, map_cons] at hfree
    have hchain : (pre.map snd ++ e.2 :: post.map snd).IsChain Linked := by
      rw [← map_cons, ← map_append]
      exact hent.linked
    have hfile : (pre ++ e :: post).flatMap fst ++ tail =
        pre.flatMap fst ++ (e.1 ++ (post.flatMap fst ++ tail)) := by
      simp
    have hroom : (scanned n (pre.map snd)).pos + headerSize ≤
        (pre.flatMap fst ++ (e.1 ++ (post.flatMap fst ++ tail))).length := by
      have := he.headerSize_le
      simp only [hpos, length_append]
      omega
    have happ : pre ++ e :: post = (pre ++ [e]) ++ post := by simp
    rw [hfile, scanLoop, if_pos hroom, scanEntry_intact he hpos, breaksChain_of_isChain hchain]
    simp only
    rw [slot_free hslots]
    simp only
    rw [← hfile, ← scanned_concat, ← map_singleton, ← map_append]
    rw [happ] at hent hfree ⊢
    have hlonger : ∀ x ∈ pre ++ [e], Intact xxh3 x.1 x.2 := fun x hx =>
      hent.intact x (mem_append_left _ hx)
    have hpos' := (scanned_spec n ((pre ++ [e]).map snd)).2.2.1
    rw [← length_flatMap_entries hlonger] at hpos'
    obtain ⟨fuel, rfl⟩ : ∃ f, fuel = f + 1 := ⟨fuel - 1, by simp at hfuel; omega⟩
    exact ih (pre ++ [e]) hent hfree hlonger hpos' fuel (by simpa using hfuel)

/-- **Torn-tail repair keeps exactly the complete entries.** A file of complete entries and a torn
one opens with the index of the complete ones, and only they stay in the file; no opening ever
removes more than a tail in which no structurally complete entry starts after its first byte. -/
theorem opening_repairs_torn_tail (xxh3 : Bytes → Nat) (snapshotOp n : Nat) :
    (∀ (es : List (Bytes × PrepareHeader)) (tail : Bytes), 0 < n → Entries xxh3 es →
      CollisionFree n snapshotOp (es.map snd) → Torn tail →
      (∀ k, 1 ≤ k → completeAt tail k = false) →
      ∃ j, openWithSlots xxh3 (es.flatMap fst ++ tail) snapshotOp n = .ok j ∧
        j.storage = es.flatMap fst ∧
        (∀ s, j.headers s = (index n (es.map snd) s).map fst) ∧
        (∀ s, j.offsets s = (index n (es.map snd) s).map snd) ∧
        j.lastOp = highestOp (es.map snd)) ∧
    ∀ file, fileAfterOpen xxh3 file snapshotOp n = file ∨
      ∃ pos < file.length, fileAfterOpen xxh3 file snapshotOp n = file.take pos ∧
        ∀ p, pos < p → completeAt file p = false := by
  constructor
  · intro es tail hn hent hfree htorn hinside
    have hfuel : es.length < (es.flatMap fst ++ tail).length + 1 := by
      have hle := length_le_sum_of_one_le (es.map fun e => e.1.length) fun k hk => by
        obtain ⟨e, he, rfl⟩ := mem_map.mp hk
        exact Nat.le_trans (by decide) (hent.intact e he).headerSize_le
      rw [length_map] at hle
      rw [length_append, length_flatMap]
      exact Nat.lt_succ_of_le (hle.trans (Nat.le_add_right _ _))
    have hscan := scanLoop_entries (n := n) [] hfuel hent hfree htorn hinside
    obtain ⟨hheaders, hoffsets, -, hlast, -⟩ := scanned_spec n (es.map snd)
    exact ⟨_, (if_neg (hn.ne')).trans (congrArg (Except.map _) hscan), rfl, hheaders,
      hoffsets, hlast⟩
  · intro file
    unfold fileAfterOpen
    cases hopen : openWithSlots xxh3 file snapshotOp n with
    | error e => exact .inl rfl
    | ok j =>
      unfold openWithSlots at hopen
      split_ifs at hopen
      obtain ⟨out, hscan, rfl⟩ := map_eq_ok.mp hopen
      exact scanLoop_cut hscan

def unsealedHeader (op : Nat) : PrepareHeader :=
  { size := headerSize, command := .prepare, op }

theorem intact_unsealed {op : Nat} (hfits : (unsealedHeader op).Fits) :
    Intact xxh3 (unsealedHeader op).bytesOf (unsealedHeader op) where
  parsed := by
    rw [← length_bytesOf hfits, take_length]
    exact tryFromBytes_bytesOf hfits
  structural := rfl
  exact := length_bytesOf hfits
  headerChecksum := rfl
  bodyChecksum := rfl

end Open

/-- A file of op 1 and the first half of op 2's header: op 1 stays. -/
theorem opening_repairs_half_header :
    ∃ j, openWithSlots (fun _ => 0) ((unsealedHeader 1).bytesOf ++ (unsealedHeader 2).bytesOf.take 128)
        0 4 = .ok j ∧ j.storage = (unsealedHeader 1).bytesOf ∧ j.lastOp = some 1 := by
  have hfits : ∀ op, op < 3 → (unsealedHeader op).Fits := by decide
  have hentry := @intact_unsealed (fun _ => 0) _ (hfits 1 (by decide))
  obtain ⟨j, hopen, hstorage, -, -, hlast⟩ := (opening_repairs_torn_tail (fun _ => 0) 0 4).1
    [((unsealedHeader 1).bytesOf, unsealedHeader 1)] ((unsealedHeader 2).bytesOf.take 128) (by decide)
    ⟨by simpa using hentry, by simp⟩ (by decide)
    ⟨_, _, 128, 0, (@intact_unsealed (fun _ => 0) _ (hfits 2 (by decide))).toFramed,
      by rw [length_bytesOf (hfits 2 (by decide))]; decide, by simp⟩
    (by
      intro k hk
      refine Bool.eq_false_iff.mpr fun hcomplete => ?_
      have hroom := room_of_completeAt hcomplete
      rw [length_take, length_bytesOf (hfits 2 (by decide))] at hroom
      simp only [headerSize] at hroom
      omega)
  exact ⟨j, by simpa using hopen, by simpa using hstorage, hlast⟩

/-- **Two entries of one slot are refused**, though they pass the structural, header, chain and body
checks. -/
theorem opening_refuses_shared_slot :
    ∃ es, Entries (fun _ => 0) es ∧ Torn [] ∧ (∀ k, 1 ≤ k → completeAt [] k = false) ∧
      ∀ j, openWithSlots (fun _ => 0) (es.flatMap fst ++ []) 0 1 ≠ .ok j := by
  have hfits : ∀ op, op < 3 → (unsealedHeader op).Fits := by decide
  have hentry : ∀ op, op < 3 → Intact (fun _ => 0) (unsealedHeader op).bytesOf (unsealedHeader op) :=
    fun op hop => intact_unsealed (hfits op hop)
  refine ⟨[((unsealedHeader 1).bytesOf, unsealedHeader 1),
    ((unsealedHeader 2).bytesOf, unsealedHeader 2)], ⟨?_, ?_⟩, ?_, ?_, ?_⟩
  · simpa using ⟨hentry 1 (by decide), hentry 2 (by decide)⟩
  · decide
  · refine ⟨_, _, 0, 0, (hentry 1 (by decide)).toFramed, ?_, rfl⟩
    rw [length_bytesOf (hfits 1 (by decide))]
    decide
  · intro k hk
    refine Bool.eq_false_iff.mpr fun hcomplete => ?_
    have hroom := room_of_completeAt hcomplete
    simp [headerSize] at hroom
  · intro j hopen
    have hrefused : (openWithSlots (fun _ => 0) ((unsealedHeader 1).bytesOf ++
        (unsealedHeader 2).bytesOf) 0 1).toBool = false := by decide +kernel
    simp only [flatMap_cons, flatMap_nil, append_nil] at hopen
    rw [hopen] at hrefused
    exact nomatch hrefused

end PrepareJournal

end Iggy
