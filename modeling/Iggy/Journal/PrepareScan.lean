import Mathlib.Data.List.Chain
import Iggy.Journal.PrepareJournal

/-!
# The opening scan over a whole file

`index` is what entering the prepares of a file one after the other leaves in the slots. The scan
takes every entry (`scanLoop_of_linked`) unless two neighbours of consecutive ops are not linked by
`parent`, and then it refuses the file or cuts it (`scanLoop_of_broken`).
-/

namespace Iggy

open List Lib ScanState PrepareHeader Option

/-! ## Entries of a file -/

structure Framed (bytes : Bytes) (header : PrepareHeader) : Prop where
  parsed : tryFromBytes (bytes.take headerSize) = some header
  structural : validEntrySizeAndCommand header
  exact : bytes.length = header.size

theorem Framed.headerSize_le {bytes : Bytes} {h : PrepareHeader} (he : Framed bytes h) :
    headerSize ≤ bytes.length := by
  have hs := he.structural
  simp only [validEntrySizeAndCommand, Bool.and_eq_true, decide_eq_true_eq] at hs
  exact he.exact ▸ hs.1.2

/-- A complete entry that passes the checks of its header and of its body. -/
structure Intact (xxh3 : Bytes → Nat) (bytes : Bytes) (header : PrepareHeader) : Prop
    extends Framed bytes header where
  headerChecksum : validHeaderChecksum xxh3 header
  bodyChecksum : validBodyChecksum xxh3 header (bytes.drop headerSize)

structure Message.Sealed (xxh3 : Bytes → Nat) (m : Message) : Prop where
  header : m.header.checksum = m.header.identityChecksum xxh3
  body : m.header.checksumBody = xxh3 m.body

/-- A sealed prepare as an append leaves it: no slack, and not over the size limit. -/
structure Message.WalEntry (xxh3 : Bytes → Nat) (m : Message) : Prop where
  isSealed : m.Sealed xxh3
  exact : m.bytes.length = m.header.size
  sized : m.header.size ≤ maxEntrySize

namespace Message.WalEntry

variable {xxh3 : Bytes → Nat} {m : Message}

theorem headerSize_le (h : m.WalEntry xxh3) : headerSize ≤ m.bytes.length :=
  h.exact ▸ m.spans

theorem tryFromBytes_append (h : m.WalEntry xxh3) (tail : Bytes) :
    tryFromBytes ((m.bytes ++ tail).take headerSize) = some m.header := by
  rw [take_append_of_le_length h.headerSize_le, m.parsed]

theorem validEntrySizeAndCommand (h : m.WalEntry xxh3) : validEntrySizeAndCommand m.header := by
  have hcommand := (validate_eq_ok.mp m.validated).1
  simp [Iggy.validEntrySizeAndCommand, hcommand, m.spans, h.sized]

theorem body_eq (h : m.WalEntry xxh3) : m.body = m.bytes.drop headerSize := by
  rw [Message.body, ← h.exact, take_length]

theorem intact (h : m.WalEntry xxh3) : Intact xxh3 m.bytes m.header where
  parsed := m.parsed
  structural := h.validEntrySizeAndCommand
  exact := h.exact
  headerChecksum := by simp [validHeaderChecksum, ← h.isSealed.header]
  bodyChecksum := by simp [validBodyChecksum, h.isSealed.body, h.body_eq]

end Message.WalEntry

namespace PrepareJournal

def walFraming : Framing PrepareHeader where
  next bs := (validEntryHeader bs 0).filter fun header => header.size ≤ bs.length
  size := size
  size_pos := by
    intro bs r h
    obtain ⟨hvalid, -⟩ := filter_eq_some_iff.mp h
    have hr := (filter_eq_some_iff.mp hvalid).2
    simp only [validEntrySizeAndCommand, Bool.and_eq_true, decide_eq_true_eq] at hr
    exact Nat.lt_of_lt_of_le (by decide) hr.1.2
  size_le := by
    intro bs r h
    simpa using (filter_eq_some_iff.mp h).2

def walHeaders (file : Bytes) : List PrepareHeader := walFraming.records file

/-- Where the scan asks for it. -/
def Linked (earlier later : PrepareHeader) : Prop :=
  nextOp earlier.op = later.op → earlier.checksum ≠ checksumUnsealed →
    later.parent = earlier.checksum

instance (a b : PrepareHeader) : Decidable (Linked a b) :=
  inferInstanceAs (Decidable (_ → _ → _))

def FileLinked (file : Bytes) : Prop := (walHeaders file).IsChain Linked

theorem linked_self (h : PrepareHeader) : Linked h h := by
  intro hop
  exact absurd hop (by unfold nextOp; omega)

section Layout

variable {xxh3 : Bytes → Nat} {ms pre post : List Message} {m : Message}

theorem next_walFraming (hm : m.WalEntry xxh3) (tail : Bytes) :
    walFraming.next (m.bytes ++ tail) = some m.header := by
  have hvalid : validEntryHeader (m.bytes ++ tail) 0 = some m.header := by
    simp only [validEntryHeader, drop_zero, hm.tryFromBytes_append,
      filter_some_pos hm.validEntrySizeAndCommand]
  have hle : m.header.size ≤ (m.bytes ++ tail).length := by
    rw [length_append, hm.exact]
    exact Nat.le_add_right _ _
  simp only [walFraming, hvalid]
  exact filter_some_pos (decide_eq_true hle)

theorem walHeaders_flatMap (h : ∀ m ∈ ms, m.WalEntry xxh3) :
    walHeaders (ms.flatMap Message.bytes) = ms.map Message.header :=
  Framing.records_flatMap (fun m hm => next_walFraming (h m hm)) fun m hm => (h m hm).exact.symm

def totalSize (hs : List PrepareHeader) : Nat := (hs.map size).sum

theorem length_flatMap_bytes (h : ∀ m ∈ ms, m.WalEntry xxh3) :
    (ms.flatMap Message.bytes).length = totalSize (ms.map Message.header) := by
  rw [length_flatMap, totalSize, List.map_map]
  exact congrArg List.sum (map_congr_left fun m hm => (h m hm).exact)

theorem drop_flatMap (h : ∀ m ∈ pre, m.WalEntry xxh3) :
    ((pre ++ post).flatMap Message.bytes).drop (totalSize (pre.map Message.header)) =
      post.flatMap Message.bytes := by
  rw [flatMap_append, ← length_flatMap_bytes h, drop_left]

theorem readAt_flatMap (h : ∀ x ∈ pre ++ m :: post, x.WalEntry xxh3) :
    readAt ((pre ++ m :: post).flatMap Message.bytes) (totalSize (pre.map Message.header))
      m.header.size = .ok m.bytes := by
  have hpre : ∀ x ∈ pre, x.WalEntry xxh3 := fun x hx => h x (mem_append_left _ hx)
  have hm := h m (by simp)
  unfold readAt
  rw [if_pos, drop_flatMap hpre, flatMap_cons, ← hm.exact, take_left]
  rw [flatMap_append, flatMap_cons, length_append, length_append,
    length_flatMap_bytes hpre, hm.exact]
  omega

end Layout

/-! ## The index that entering entries one by one leaves -/

def layout : Nat → List PrepareHeader → List (PrepareHeader × Nat)
  | _, [] => []
  | pos, h :: hs => (h, pos) :: layout (pos + h.size) hs

def index (slotCount : Nat) (hs : List PrepareHeader) : Nat → Option (PrepareHeader × Nat) :=
  writeAll ((layout 0 hs).map fun e => (slotForOp e.1.op slotCount, some e)) fun _ => none

def highestOp (hs : List PrepareHeader) : Option Nat :=
  hs.foldl (fun lastOp h => noteLastOp lastOp h.op) none

section Index

variable {n pos : Nat} {hs : List PrepareHeader} {h : PrepareHeader} {e : PrepareHeader × Nat}

@[simp] theorem totalSize_concat : totalSize (hs ++ [h]) = totalSize hs + h.size := by
  simp [totalSize]

@[simp] theorem layout_concat :
    layout pos (hs ++ [h]) = layout pos hs ++ [(h, pos + totalSize hs)] := by
  induction hs generalizing pos with
  | nil => simp [layout, totalSize]
  | cons a hs ih => simp [layout, ih, totalSize, Nat.add_assoc]

theorem map_fst_layout : (layout pos hs).map Prod.fst = hs := by
  induction hs generalizing pos with
  | nil => rfl
  | cons a hs ih => simp [layout, ih]

theorem exists_split_of_mem_layout (he : e ∈ layout pos hs) :
    ∃ pre post, hs = pre ++ e.1 :: post ∧ e.2 = pos + totalSize pre := by
  induction hs generalizing pos with
  | nil => exact nomatch he
  | cons a hs ih =>
    obtain rfl | he := mem_cons.mp he
    · exact ⟨[], hs, rfl, rfl⟩
    · obtain ⟨pre, post, rfl, hpos⟩ := ih he
      refine ⟨a :: pre, post, rfl, ?_⟩
      simp only [hpos, totalSize, map_cons, sum_cons, Nat.add_assoc]

@[simp] theorem index_concat :
    index n (hs ++ [h]) =
      Function.update (index n hs) (slotForOp h.op n) (some (h, totalSize hs)) := by
  simp [index]

variable {s : Nat}

theorem mem_slots_layout {β : Type} {v : PrepareHeader × Nat → β} :
    s ∈ ((layout pos hs).map fun e => (slotForOp e.1.op n, v e)).map Prod.fst ↔
      ∃ h ∈ hs, slotForOp h.op n = s := by
  conv_rhs => rw [← @map_fst_layout pos hs]
  simp

theorem index_eq_some (he : index n hs s = some e) : e ∈ layout 0 hs ∧ slotForOp e.1.op n = s := by
  by_cases hs' : s ∈ ((layout 0 hs).map fun e => (slotForOp e.1.op n, some e)).map Prod.fst
  · have hmem := writeAll_mem (f := fun _ => none) hs'
    rw [← index, he] at hmem
    obtain ⟨e', he', heq⟩ := mem_map.mp hmem
    cases heq
    exact ⟨he', rfl⟩
  · rw [index, writeAll_of_notMem hs'] at he
    exact nomatch he

theorem mem_of_index (he : index n hs s = some e) : e.1 ∈ hs := by
  rw [← @map_fst_layout 0 hs]
  exact mem_map_of_mem (index_eq_some he).1

/-- Entries of one slot follow each other only once the earlier one is snapshotted. -/
def Fenced (n snapshotOp : Nat) (hs : List PrepareHeader) : Prop :=
  hs.Pairwise fun a b => slotForOp a.op n = slotForOp b.op n → a.op ≤ snapshotOp

theorem index_of_fenced {snapshotOp : Nat} (hf : Fenced n snapshotOp hs) (hh : h ∈ hs) :
    ∃ e, index n hs (slotForOp h.op n) = some e ∧ (e.1 = h ∨ h.op ≤ snapshotOp) := by
  induction hs using List.reverseRecOn with
  | nil => exact nomatch hh
  | append_singleton hs a ih =>
    obtain ⟨hfs, -, hlast⟩ := pairwise_append.mp hf
    have hlast : ∀ b ∈ hs, slotForOp b.op n = slotForOp a.op n → b.op ≤ snapshotOp :=
      fun b hb => hlast b hb a (mem_singleton_self a)
    rw [index_concat]
    by_cases hslot : slotForOp h.op n = slotForOp a.op n
    · rw [hslot, Function.update_self]
      refine ⟨_, rfl, ?_⟩
      obtain hh | hh := mem_append.mp hh
      · exact .inr (hlast h hh hslot)
      · exact .inl (mem_singleton.mp hh).symm
    · have hh : h ∈ hs := by
        refine (mem_append.mp hh).resolve_right fun hh => hslot ?_
        rw [mem_singleton.mp hh]
      rw [Function.update_of_ne hslot]
      exact ih hfs hh

/-! ### The highest op -/

@[simp] theorem highestOp_concat : highestOp (hs ++ [h]) = noteLastOp (highestOp hs) h.op := by
  simp [highestOp]

def above (bound : Nat) (lastOp : Option Nat) : Option Nat := lastOp.filter (bound < ·)

theorem above_eq_some {bound x : Nat} {o : Option Nat} :
    above bound o = some x ↔ o = some x ∧ bound < x := by
  simp [above, filter_eq_some_iff]

theorem above_some (bound c : Nat) :
    above bound (some c) = if bound < c then some c else none := by
  simp [above, filter_some]

theorem above_noteLastOp (bound op : Nat) (o : Option Nat) :
    above bound (noteLastOp o op) = above bound (noteLastOp (above bound o) op) := by
  cases o with
  | none => rfl
  | some c =>
    by_cases hc : bound < c
    · rw [above_some bound c, if_pos hc]
    · rw [above_some bound c, if_neg hc]
      simp only [noteLastOp]
      split
      · rfl
      case isFalse hle => rw [above_some, above_some, if_neg hc, if_neg (by omega)]

theorem above_congr {bound bound' : Nat} {o o' : Option Nat} (hle : bound ≤ bound')
    (h : above bound o = above bound o') : above bound' o = above bound' o' := by
  have hraise : ∀ o, above bound' o = above bound' (above bound o) := by
    intro o
    cases o with
    | none => rfl
    | some c =>
      by_cases hc : bound < c
      · rw [above_some bound c, if_pos hc]
      · rw [above_some bound c, if_neg hc, above_some, if_neg (by omega)]
        rfl
  rw [hraise o, h, ← hraise o']

theorem highestOp_spec :
    (highestOp hs = none ∧ hs = []) ∨
      ∃ h ∈ hs, highestOp hs = some h.op ∧ ∀ a ∈ hs, a.op ≤ h.op := by
  induction hs using List.reverseRecOn with
  | nil => exact .inl ⟨rfl, rfl⟩
  | append_singleton hs b ih =>
    refine .inr ?_
    rw [highestOp_concat]
    simp only [mem_append, mem_singleton]
    obtain ⟨hnone, rfl⟩ | ⟨h, hh, hsome, hmax⟩ := ih
    · exact ⟨b, .inr rfl, by rw [hnone]; rfl, by simp⟩
    · rw [hsome]
      simp only [noteLastOp]
      split
      case isTrue hlt =>
        refine ⟨b, .inr rfl, rfl, ?_⟩
        rintro a (ha | rfl)
        · exact Nat.le_trans (hmax a ha) (hlt.le)
        · exact le_rfl
      case isFalse hge =>
        refine ⟨h, .inl hh, rfl, ?_⟩
        rintro a (ha | rfl)
        · exact hmax a ha
        · exact not_lt.mp hge

theorem highestOp_eq_some {x : Nat} :
    highestOp hs = some x ↔ (∃ h ∈ hs, h.op = x) ∧ ∀ a ∈ hs, a.op ≤ x := by
  constructor
  · intro hx
    obtain ⟨hnone, -⟩ | ⟨h, hh, hsome, hmax⟩ := @highestOp_spec hs
    · rw [hnone] at hx
      exact nomatch hx
    · cases hsome.symm.trans hx
      exact ⟨⟨h, hh, rfl⟩, hmax⟩
  · rintro ⟨⟨a, ha, rfl⟩, hmax⟩
    obtain ⟨-, rfl⟩ | ⟨h, hh, hsome, hle⟩ := @highestOp_spec hs
    · exact nomatch ha
    · rw [hsome, le_antisymm (hmax h hh) (hle a ha)]

end Index

/-! ## The scan, entry by entry -/

def scanned (n : Nat) (hs : List PrepareHeader) : ScanState := hs.foldl (accept n) {}

section Scan

variable {n snapshotOp : Nat} {hs : List PrepareHeader} {h : PrepareHeader}

@[simp] theorem scanned_concat : scanned n (hs ++ [h]) = (scanned n hs).accept n h := by
  simp [scanned]

theorem scanned_spec (n : Nat) (hs : List PrepareHeader) :
    (∀ s, (scanned n hs).headers s = (index n hs s).map Prod.fst) ∧
      (∀ s, (scanned n hs).offsets s = (index n hs s).map Prod.snd) ∧
      (scanned n hs).pos = totalSize hs ∧ (scanned n hs).lastOp = highestOp hs ∧
      (scanned n hs).chainPrevious = hs.getLast?.map fun h => (h.op, h.checksum) := by
  induction hs using List.reverseRecOn with
  | nil => exact ⟨fun _ => rfl, fun _ => rfl, rfl, rfl, rfl⟩
  | append_singleton hs h ih =>
    obtain ⟨hheaders, hoffsets, hpos, hlast, -⟩ := ih
    rw [scanned_concat, index_concat]
    refine ⟨fun s => ?_, fun s => ?_, ?_, ?_, ?_⟩
    · by_cases hs' : s = slotForOp h.op n
      · simp [accept, hs']
      · simp [accept, Function.update_of_ne hs', hheaders]
    · by_cases hs' : s = slotForOp h.op n
      · simp [accept, hs', hpos]
      · simp [accept, Function.update_of_ne hs', hoffsets]
    · simp [accept, hpos]
    · simp [accept, hlast]
    · simp [accept]

theorem breaksChain_eq_none :
    breaksChain (scanned n hs).chainPrevious h = none ↔ ∀ a ∈ hs.getLast?, Linked a h := by
  rw [(scanned_spec n hs).2.2.2.2]
  cases hs.getLast? with
  | none => simp [breaksChain]
  | some a => simp [breaksChain, Linked, filter_eq_none_iff]

variable {rest : List PrepareHeader}

theorem breaksChain_of_isChain (hchain : (hs ++ h :: rest).IsChain Linked) :
    breaksChain (scanned n hs).chainPrevious h = none :=
  breaksChain_eq_none.mpr fun a ha => (isChain_append.mp hchain).2.2 a ha h (by simp)

/-- The slot's holder stands before the entry in the file, so it has the same op or is let go. -/
theorem slot_free (hfree : (hs ++ h :: rest).Pairwise fun a b =>
      slotForOp a.op n = slotForOp b.op n → a.op = b.op ∨ a.op ≤ snapshotOp) :
    ((scanned n hs).headers (slotForOp h.op n)).filter
      (fun e => e.op ≠ h.op ∧ snapshotOp < e.op) = none := by
  rw [(scanned_spec n hs).1, filter_eq_none_iff]
  intro e he
  obtain ⟨e, hindex, rfl⟩ := map_eq_some_iff.mp he
  have hle := (pairwise_append.mp hfree).2.2 e.1 (mem_of_index hindex) h mem_cons_self
    (index_eq_some hindex).2
  simp
  omega

variable {xxh3 : Bytes → Nat}

/-- What is left to check is the parent link and the slot. -/
theorem scanEntry_intact {before bytes tail : Bytes} {s : ScanState}
    (he : Intact xxh3 bytes h) (hpos : s.pos = before.length) :
    scanEntry xxh3 n snapshotOp (before ++ (bytes ++ tail)) s =
      match breaksChain s.chainPrevious h with
      | some (previousOp, previousChecksum) =>
        damaged (before ++ (bytes ++ tail)) (s.pos + h.size)
          (.interiorChain s.pos h.op previousOp h.parent previousChecksum)
          "prepare parent chain break at tail"
      | none =>
        match (s.headers (slotForOp h.op n)).filter fun e => e.op ≠ h.op ∧ snapshotOp < e.op with
        | some existing =>
          .error (.rebuildCollision h.op existing.op (slotForOp h.op n) n snapshotOp)
        | none => .ok (.accepted (s.accept n h)) := by
  have hparsed : tryFromBytes ((bytes ++ tail).take headerSize) = some h := by
    rw [take_append_of_le_length he.headerSize_le, he.parsed]
  have hlen : ¬ (before ++ (bytes ++ tail)).length < before.length + h.size := by
    rw [length_append, length_append, he.exact]
    omega
  have hbody : ((before ++ (bytes ++ tail)).drop (before.length + headerSize)).take
      (h.size - headerSize) = bytes.drop headerSize := by
    rw [← drop_drop, drop_left, drop_append_of_le_length he.headerSize_le, ← he.exact,
      ← length_drop, take_left]
  simp only [scanEntry, hpos, drop_left, hparsed, he.structural, he.headerChecksum, hlen,
    not_true_eq_false, if_false, hbody, he.bodyChecksum] <;> rfl

variable {pre post : List Message} {m : Message}

/-- Every check but the one of the parent link passes. -/
theorem scanEntry_at (hent : ∀ x ∈ pre ++ m :: post, x.WalEntry xxh3)
    (hfenced : Fenced n snapshotOp ((pre ++ m :: post).map Message.header)) :
    scanEntry xxh3 n snapshotOp ((pre ++ m :: post).flatMap Message.bytes)
        (scanned n (pre.map Message.header)) =
      match breaksChain (scanned n (pre.map Message.header)).chainPrevious m.header with
      | some (previousOp, previousChecksum) =>
        damaged ((pre ++ m :: post).flatMap Message.bytes)
          (totalSize (pre.map Message.header) + m.header.size)
          (.interiorChain (totalSize (pre.map Message.header)) m.header.op previousOp
            m.header.parent previousChecksum)
          "prepare parent chain break at tail"
      | none => .ok (.accepted (scanned n ((pre ++ [m]).map Message.header))) := by
  have hpre : ∀ x ∈ pre, x.WalEntry xxh3 := fun x hx => hent x (mem_append_left _ hx)
  have hpos := (scanned_spec n (pre.map Message.header)).2.2.1
  rw [map_append, map_cons] at hfenced
  rw [flatMap_append, flatMap_cons,
    scanEntry_intact (hent m (by simp)).intact (by rw [hpos, length_flatMap_bytes hpre]),
    slot_free (hfenced.imp fun hle hslot => .inr (hle hslot)), hpos, map_append, map_cons, map_nil,
    scanned_concat]

theorem pos_add_headerSize_le (hent : ∀ x ∈ pre ++ m :: post, x.WalEntry xxh3) :
    (scanned n (pre.map Message.header)).pos + headerSize ≤
      ((pre ++ m :: post).flatMap Message.bytes).length := by
  have hpre : ∀ x ∈ pre, x.WalEntry xxh3 := fun x hx => hent x (mem_append_left _ hx)
  have hle := (hent m (by simp)).headerSize_le
  rw [(scanned_spec n (pre.map Message.header)).2.2.1, flatMap_append, flatMap_cons,
    length_append, length_append, length_flatMap_bytes hpre]
  omega

theorem truncateOrFail_ne {file out : Bytes} {pos : Nat} {reason : String}
    (hpos : pos < file.length) (h : truncateOrFail file pos reason = .ok out) : out ≠ file := by
  unfold truncateOrFail at h
  split at h
  · exact nomatch h
  split_ifs at h
  cases h
  intro heq
  have := congrArg List.length heq
  rw [length_take] at this
  omega

variable (pre) {fuel : Nat} (hfuel : post.length < fuel)
  (hent : ∀ x ∈ pre ++ post, x.WalEntry xxh3)
  (hfenced : Fenced n snapshotOp ((pre ++ post).map Message.header))

include hfuel hent hfenced

theorem scanLoop_of_linked (hlinked : ((pre ++ post).map Message.header).IsChain Linked) :
    scanLoop xxh3 n snapshotOp ((pre ++ post).flatMap Message.bytes) fuel
        (scanned n (pre.map Message.header)) =
      .ok (scanned n ((pre ++ post).map Message.header), (pre ++ post).flatMap Message.bytes) := by
  induction post generalizing pre fuel with
  | nil =>
    obtain ⟨fuel, rfl⟩ : ∃ f, fuel = f + 1 := ⟨fuel - 1, by simp at hfuel; omega⟩
    have hpos : (scanned n (pre.map Message.header)).pos = (pre.flatMap Message.bytes).length := by
      rw [(scanned_spec n _).2.2.1, length_flatMap_bytes fun x hx => hent x (by simpa using hx)]
    have hroom : ¬ (pre.flatMap Message.bytes).length + headerSize ≤
        (pre.flatMap Message.bytes).length := by
      unfold headerSize
      omega
    simp only [scanLoop, append_nil, hpos, hroom, if_false, lt_irrefl]
  | cons m post ih =>
    obtain ⟨fuel, rfl⟩ : ∃ f, fuel = f + 1 := ⟨fuel - 1, by simp at hfuel; omega⟩
    have hlink : breaksChain (scanned n (pre.map Message.header)).chainPrevious m.header = none := by
      rw [map_append, map_cons] at hlinked
      exact breaksChain_of_isChain hlinked
    have happ : pre ++ m :: post = (pre ++ [m]) ++ post := by simp
    rw [scanLoop, if_pos (pos_add_headerSize_le hent), scanEntry_at hent hfenced, hlink]
    simp only
    rw [happ] at hent hfenced hlinked ⊢
    exact ih (pre ++ [m]) (by simpa using hfuel) hent hfenced hlinked

theorem scanLoop_of_broken (hpre : (pre.map Message.header).IsChain Linked)
    (hbroken : ¬ ((pre ++ post).map Message.header).IsChain Linked) {out : ScanState × Bytes}
    (h : scanLoop xxh3 n snapshotOp ((pre ++ post).flatMap Message.bytes) fuel
      (scanned n (pre.map Message.header)) = .ok out) :
    out.2 ≠ (pre ++ post).flatMap Message.bytes := by
  induction post generalizing pre fuel with
  | nil =>
    rw [append_nil] at hbroken
    exact absurd hpre hbroken
  | cons m post ih =>
    obtain ⟨fuel, rfl⟩ : ∃ f, fuel = f + 1 := ⟨fuel - 1, by simp at hfuel; omega⟩
    have hroom := @pos_add_headerSize_le n xxh3 pre post m hent
    have happ : pre ++ m :: post = (pre ++ [m]) ++ post := by simp
    rw [scanLoop, if_pos hroom, scanEntry_at hent hfenced] at h
    cases hlink : breaksChain (scanned n (pre.map Message.header)).chainPrevious m.header with
    | none =>
      rw [hlink] at h
      simp only at h
      rw [breaksChain_eq_none] at hlink
      rw [happ] at hent hfenced hbroken h ⊢
      refine ih (pre ++ [m]) (by simpa using hfuel) hent hfenced ?_ hbroken h
      rw [map_append, isChain_append]
      exact ⟨hpre, by simp, by simpa using hlink⟩
    | some p =>
      rw [hlink] at h
      simp only [damaged] at h
      split at h
      · exact nomatch h
      case h_2 reason hcut =>
        obtain ⟨file, hfile, rfl⟩ := map_eq_ok.mp h
        refine truncateOrFail_ne ?_ hfile
        unfold headerSize at hroom
        omega
      case h_3 s hcut =>
        split at hcut <;> exact nomatch hcut

end Scan

end PrepareJournal

end Iggy
