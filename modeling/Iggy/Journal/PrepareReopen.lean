import Mathlib.Algebra.BigOperators.Group.List.Basic
import Iggy.Journal.PrepareScan

/-!
# Reopening the metadata WAL

Behind every journal that a sequence of operations reaches stands the list of prepares its file
holds, and the live index is what entering them one after the other would leave (`Holds`). The scan
does that on reopening; the only thing that can stop it is its check of the parent link between
neighbours of consecutive ops, which `append` does not make.
-/

namespace Iggy

open List Lib PrepareJournal

namespace PrepareJournal

/-! ## What stands behind a live journal -/

variable {xxh3 : Bytes → Nat} {j j' : PrepareJournal} {ms ms' : List Message} {m : Message}
  {range : OpRange} {op : Op} {ops : List Op} {a : PrepareHeader} {s : Nat}

structure Holds (xxh3 : Bytes → Nat) (j : PrepareJournal) (ms : List Message) : Prop where
  slots : 0 < j.slotCount
  entries : ∀ m ∈ ms, m.WalEntry xxh3
  storage : j.storage = ms.flatMap Message.bytes
  headers : ∀ s, j.headers s = (index j.slotCount (ms.map Message.header) s).map Prod.fst
  offsets : ∀ s, j.offsets s = (index j.slotCount (ms.map Message.header) s).map Prod.snd
  fenced : Fenced j.slotCount j.snapshotOp (ms.map Message.header)
  lastOp : above j.snapshotOp j.lastOp = above j.snapshotOp (highestOp (ms.map Message.header))

theorem append_eq_ok :
    j.append m = .ok j' ↔ m.bytes.length = m.header.size ∧
      (∀ e ∈ j.headers (slotForOp m.header.op j.slotCount), e.op ≤ j.snapshotOp) ∧
      j' = j.write m := by
  unfold append
  split
  case isTrue hne => simp [hne]
  case isFalse heq =>
    have heq := not_not.mp heq
    split
    case h_1 existing hfilter =>
      obtain ⟨hsome, hlt⟩ := Option.filter_eq_some_iff.mp hfilter
      have hlt : j.snapshotOp < existing.op := by simpa using hlt
      simp only [reduceCtorEq, false_iff]
      rintro ⟨-, hle, -⟩
      exact absurd (hle existing hsome) (not_le.mpr hlt)
    case h_2 hfilter =>
      rw [Option.filter_eq_none_iff] at hfilter
      simp only [decide_eq_true_eq, not_lt] at hfilter
      constructor
      · intro hok
        cases hok
        exact ⟨heq, hfilter, rfl⟩
      · rintro ⟨-, -, rfl⟩
        rfl

theorem setSnapshotOp_eq_ok {op : Nat} :
    j.setSnapshotOp op = .ok j' ↔ j.snapshotOp ≤ op ∧ j' = { j with snapshotOp := op } := by
  unfold setSnapshotOp
  split <;> simp <;> grind

namespace Holds

theorem empty {snapshotOp slotCount : Nat} (hn : 0 < slotCount) :
    Holds xxh3 (empty snapshotOp slotCount) [] where
  slots := hn
  entries := nofun
  storage := rfl
  headers _ := rfl
  offsets _ := rfl
  fenced := List.Pairwise.nil
  lastOp := rfl

theorem setSnapshotOp {op : Nat} (h : Holds xxh3 j ms) (hle : j.snapshotOp ≤ op) :
    Holds xxh3 { j with snapshotOp := op } ms :=
  { h with
    fenced := h.fenced.imp fun hfence hslot => Nat.le_trans (hfence hslot) hle
    lastOp := above_congr hle h.lastOp }

section

variable (h : Holds xxh3 j ms)
include h

theorem write (hm : m.WalEntry xxh3)
    (hfree : ∀ e ∈ j.headers (slotForOp m.header.op j.slotCount), e.op ≤ j.snapshotOp) :
    Holds xxh3 (j.write m) (ms ++ [m]) where
  slots := h.slots
  entries := forall_mem_append.mpr ⟨h.entries, forall_mem_singleton.mpr hm⟩
  storage := by simp [PrepareJournal.write, h.storage]
  headers s := by
    simp only [PrepareJournal.write, map_append, map_cons, map_nil, index_concat]
    by_cases hs : s = slotForOp m.header.op j.slotCount
    · simp [hs]
    · rw [Function.update_of_ne hs, Function.update_of_ne hs, h.headers]
  offsets s := by
    simp only [PrepareJournal.write, map_append, map_cons, map_nil, index_concat]
    by_cases hs : s = slotForOp m.header.op j.slotCount
    · simp [hs, h.storage, length_flatMap_bytes h.entries]
    · rw [Function.update_of_ne hs, Function.update_of_ne hs, h.offsets]
  fenced := by
    rw [map_append, Fenced, pairwise_append]
    refine ⟨h.fenced, by simp, ?_⟩
    intro a ha b hb (hslot : slotForOp a.op j.slotCount = slotForOp b.op j.slotCount)
    obtain rfl : b = m.header := by simpa using hb
    obtain ⟨e, hindex, rfl | hle⟩ := index_of_fenced h.fenced ha
    · refine hfree e.1 ?_
      rw [← hslot, h.headers]
      exact Option.map_eq_some_iff.mpr ⟨e, hindex, rfl⟩
    · exact hle
  lastOp := by
    simp only [PrepareJournal.write, map_append, map_cons, map_nil, highestOp_concat]
    rw [above_noteLastOp, h.lastOp, ← above_noteLastOp]

theorem occupied_eq :
    j.occupied = (List.range j.slotCount).filterMap (index j.slotCount (ms.map Message.header)) := by
  unfold occupied
  congr 1
  funext s
  rw [h.headers, h.offsets]
  cases index j.slotCount (ms.map Message.header) s with
  | none => rfl
  | some e => rfl

variable {e : PrepareHeader × Nat}

theorem mem_occupied :
    e ∈ j.occupied ↔ ∃ s, index j.slotCount (ms.map Message.header) s = some e := by
  rw [h.occupied_eq, mem_filterMap]
  constructor
  · rintro ⟨s, -, hs⟩
    exact ⟨s, hs⟩
  · rintro ⟨s, hs⟩
    refine ⟨s, ?_, hs⟩
    rw [mem_range, ← (index_eq_some hs).2]
    exact Nat.mod_lt _ h.slots

theorem mem_live : e ∈ j.live range ↔ (∃ s, index j.slotCount (ms.map Message.header) s = some e) ∧
      range.contains e.1.op = false := by
  rw [live, sortByOp, mem_insertionSort, mem_filter, h.mem_occupied]
  simp

theorem live_distinct : ((j.live range).map Prod.fst).Pairwise fun a b =>
      slotForOp a.op j.slotCount ≠ slotForOp b.op j.slotCount := by
  have hoccupied : j.occupied.Pairwise fun a b =>
      slotForOp a.1.op j.slotCount ≠ slotForOp b.1.op j.slotCount := by
    rw [h.occupied_eq, pairwise_filterMap]
    refine nodup_range.imp fun hne a ha b hb => ?_
    rwa [(index_eq_some ha).2, (index_eq_some hb).2]
  rw [pairwise_map, live, sortByOp, (perm_insertionSort _ _).pairwise_iff fun hne => hne.symm]
  exact hoccupied.filter _

theorem readAt_of_index {s : Nat} (he : index j.slotCount (ms.map Message.header) s = some e) :
    ∃ m ∈ ms, m.header = e.1 ∧ readAt j.storage e.2 e.1.size = .ok m.bytes := by
  obtain ⟨pre, post, hsplit, hoffset⟩ := exists_split_of_mem_layout (index_eq_some he).1
  obtain ⟨pre, rest, rfl, rfl, hrest⟩ := map_eq_append_iff.mp hsplit
  obtain ⟨m, post, rfl, hm, rfl⟩ := map_eq_cons_iff.mp hrest
  refine ⟨m, by simp, hm, ?_⟩
  rw [h.storage, hoffset, ← hm, Nat.zero_add]
  exact readAt_flatMap h.entries

theorem mapM_readAt {live : List (PrepareHeader × Nat)}
    (hlive : ∀ e ∈ live, ∃ s, index j.slotCount (ms.map Message.header) s = some e) :
    ∃ ms' : List Message, (∀ m ∈ ms', m ∈ ms) ∧ ms'.map Message.header = live.map Prod.fst ∧
      live.mapM (fun e => readAt j.storage e.2 e.1.size) = .ok (ms'.map Message.bytes) := by
  induction live with
  | nil => exact ⟨[], nofun, rfl, rfl⟩
  | cons e live ih =>
    obtain ⟨s, hs⟩ := hlive e mem_cons_self
    obtain ⟨m, hm, hheader, hread⟩ := h.readAt_of_index hs
    obtain ⟨ms', hsub, hheaders, hrest⟩ := ih fun e he => hlive e (mem_cons_of_mem _ he)
    refine ⟨m :: ms', forall_mem_cons.mpr ⟨hm, hsub⟩, ?_, ?_⟩
    · rw [map_cons, map_cons, hheader, hheaders]
    · rw [mapM_cons, hread, hrest]
      rfl

theorem rewriteWal_live {file : Bytes} (hfile : j.rewriteWal (j.live range) = .ok file) :
    ∃ ms' : List Message, (∀ m ∈ ms', m ∈ ms) ∧ ms'.map Message.header = (j.live range).map Prod.fst ∧
      file = ms'.flatMap Message.bytes := by
  obtain ⟨ms', hsub, hheaders, hread⟩ := h.mapM_readAt fun e he => (h.mem_live.mp he).1
  refine ⟨ms', hsub, hheaders, ?_⟩
  rw [rewriteWal, hread] at hfile
  simpa [Except.map, List.flatMap] using hfile.symm

end

end Holds

theorem compactedOffsets_eq (n : Nat) (live : List (PrepareHeader × Nat)) (pos : Nat)
    (offsets : Nat → Option Nat) :
    compactedOffsets n live pos offsets =
      writeAll ((layout pos (live.map Prod.fst)).map fun e => (slotForOp e.1.op n, some e.2))
        offsets := by
  induction live generalizing pos offsets with
  | nil => rfl
  | cons e live ih =>
    rw [compactedOffsets, ih]
    rfl

theorem map_snd_index (n s : Nat) (hs : List PrepareHeader) :
    (index n hs s).map Prod.snd =
      writeAll ((layout 0 hs).map fun e => (slotForOp e.1.op n, some e.2)) (fun _ => none) s := by
  rw [index, map_writeAll (Option.map Prod.snd), map_map]
  rfl

namespace Holds

theorem index_live_of_mem (h : Holds xxh3 j ms) {e : PrepareHeader}
    (he : e ∈ (j.live range).map Prod.fst) (hs : slotForOp e.op j.slotCount = s) :
    j.headers s = some e ∧ range.contains e.op = false ∧
      ∃ offset, index j.slotCount ((j.live range).map Prod.fst) s = some (e, offset) := by
  have hheaders : ∀ e ∈ (j.live range).map Prod.fst,
      j.headers (slotForOp e.op j.slotCount) = some e ∧ range.contains e.op = false := by
    intro e he
    obtain ⟨x, hx, rfl⟩ := mem_map.mp he
    obtain ⟨⟨t, ht⟩, hout⟩ := h.mem_live.mp hx
    rw [(index_eq_some ht).2, h.headers, ht]
    exact ⟨rfl, hout⟩
  obtain ⟨x, hx⟩ : ∃ x, index j.slotCount ((j.live range).map Prod.fst) s = some x := by
    have hmem : (s, index j.slotCount ((j.live range).map Prod.fst) s) ∈ _ :=
      writeAll_mem (mem_slots_layout.mpr ⟨e, he, hs⟩)
    obtain ⟨x, -, hx⟩ := mem_map.mp hmem
    exact ⟨x, (congrArg Prod.snd hx).symm⟩
  -- both entries are what the old index holds in the slot
  have hxe : x.1 = e := by
    have hx' := (hheaders x.1 (mem_of_index hx)).1
    rw [(index_eq_some hx).2, ← hs, (hheaders e he).1] at hx'
    exact (Option.some.inj hx').symm
  refine ⟨hs ▸ (hheaders e he).1, (hheaders e he).2, x.2, ?_⟩
  rw [hx, ← hxe]

theorem index_live_of_notMem (h : Holds xxh3 j ms)
    (hs : ¬ ∃ e ∈ (j.live range).map Prod.fst, slotForOp e.op j.slotCount = s) :
    index j.slotCount ((j.live range).map Prod.fst) s = none ∧
      (((j.headers s).any fun e => range.contains e.op) = true ∨
        index j.slotCount (ms.map Message.header) s = none) := by
  constructor
  · rw [index, writeAll_of_notMem (mem_slots_layout.not.mpr hs)]
  · cases hindex : index j.slotCount (ms.map Message.header) s with
    | none => exact .inr rfl
    | some e =>
      refine .inl ?_
      rw [h.headers, hindex]
      by_contra hout
      refine hs ⟨e.1, mem_map_of_mem (h.mem_live.mpr ⟨⟨s, hindex⟩, ?_⟩), (index_eq_some hindex).2⟩
      simpa using hout

/-- **A rewrite keeps the journal and its file in step.** -/
theorem compacted (h : Holds xxh3 j ms) (hsub : ∀ m ∈ ms', m ∈ ms)
    (hheaders : ms'.map Message.header = (j.live range).map Prod.fst) {snapshotOp : Nat}
    {lastOp : Option Nat}
    (hlast : above snapshotOp lastOp = above snapshotOp (highestOp (ms'.map Message.header))) :
    Holds xxh3 { j.compacted range (ms'.flatMap Message.bytes) with snapshotOp, lastOp } ms' where
  slots := h.slots
  entries m hm := h.entries m (hsub m hm)
  storage := rfl
  headers s := by
    simp only [PrepareJournal.compacted, hheaders]
    by_cases hs : ∃ e ∈ (j.live range).map Prod.fst, slotForOp e.op j.slotCount = s
    · obtain ⟨e, he, hs⟩ := hs
      obtain ⟨hold, hout, offset, hnew⟩ := h.index_live_of_mem he hs
      simp [hold, hout, hnew]
    · obtain ⟨hnew, hcleared | hempty⟩ := h.index_live_of_notMem hs
      · simp [hnew, hcleared]
      · simp [hnew, h.headers, hempty]
  offsets s := by
    simp only [PrepareJournal.compacted, hheaders, compactedOffsets_eq, map_snd_index]
    by_cases hs : ∃ e ∈ (j.live range).map Prod.fst, slotForOp e.op j.slotCount = s
    · obtain ⟨e, he, hs⟩ := hs
      obtain ⟨hold, hout, -⟩ := h.index_live_of_mem he hs
      rw [if_neg (by simp [hold, hout])]
      exact writeAll_congr (mem_slots_layout.mpr ⟨e, he, hs⟩)
    · rw [writeAll_of_notMem (mem_slots_layout.not.mpr hs),
        writeAll_of_notMem (mem_slots_layout.not.mpr hs)]
      obtain ⟨-, hcleared | hempty⟩ := h.index_live_of_notMem hs
      · rw [if_pos hcleared]
      · simp [h.offsets, hempty]
  fenced := by
    rw [hheaders]
    exact h.live_distinct.imp fun hne heq => absurd heq hne
  lastOp := hlast

end Holds

/-! ## One operation, a run of operations -/

theorem Holds.above_highestOp_live (h : Holds xxh3 j ms) :
    above (max j.snapshotOp range.last) (highestOp (ms.map Message.header)) =
      above (max j.snapshotOp range.last) (highestOp ((j.live range).map Prod.fst)) := by
  have hsub : ∀ a ∈ (j.live range).map Prod.fst, a ∈ ms.map Message.header := by
    intro a ha
    obtain ⟨e, he, rfl⟩ := mem_map.mp ha
    obtain ⟨⟨s, hs⟩, -⟩ := h.mem_live.mp he
    exact mem_of_index hs
  have hkept : ∀ a ∈ ms.map Message.header, max j.snapshotOp range.last < a.op →
      a ∈ (j.live range).map Prod.fst := by
    intro a ha hlt
    obtain ⟨e, hindex, rfl | hle⟩ := index_of_fenced h.fenced ha
    · refine mem_map_of_mem (h.mem_live.mpr ⟨⟨_, hindex⟩, ?_⟩)
      simp only [OpRange.contains, Bool.and_eq_false_iff, decide_eq_false_iff_not]
      omega
    · omega
  apply Option.ext
  intro x
  simp only [above_eq_some, highestOp_eq_some]
  constructor
  · rintro ⟨⟨⟨a, ha, rfl⟩, hmax⟩, hlt⟩
    exact ⟨⟨⟨a, hkept a ha hlt, rfl⟩, fun b hb => hmax b (hsub b hb)⟩, hlt⟩
  · rintro ⟨⟨⟨a, ha, rfl⟩, hmax⟩, hlt⟩
    refine ⟨⟨⟨a, hsub a ha, rfl⟩, fun b hb => ?_⟩, hlt⟩
    by_contra hgt
    exact hgt (hmax b (hkept b hb (by omega)))

theorem highestOp_live :
    highestOp ((j.live range).map Prod.fst) = (j.live range).getLast?.map fun e => e.1.op := by
  have hsorted : (j.live range).Pairwise fun a b => a.1.op ≤ b.1.op :=
    pairwise_insertionSort _ _
  generalize j.live range = live at hsorted
  cases live using List.reverseRecOn with
  | nil => rfl
  | append_singleton live e =>
    rw [getLast?_concat, Option.map_some, highestOp_eq_some]
    refine ⟨⟨e.1, by simp, rfl⟩, ?_⟩
    intro a ha
    obtain ⟨x, hx, rfl⟩ := mem_map.mp ha
    obtain hx | hx := mem_append.mp hx
    · exact (pairwise_append.mp hsorted).2.2 x hx e (mem_singleton_self e)
    · rw [mem_singleton.mp hx]

/-- A sealed prepare within the size limit, where the operation appends one. -/
def Op.Admissible (xxh3 : Bytes → Nat) : Op → Prop
  | .append m => m.Sealed xxh3 ∧ m.header.size ≤ maxEntrySize
  | _ => True

/-- **What one operation does to the file.** It appends an entry, leaves the entries, or rewrites
the file with entries of the index. -/
theorem step_cases (h : Holds xxh3 j ms) (hop : op.Admissible xxh3) (hok : j.step op = .ok j') :
    (∃ m, op = .append m ∧ j' = j.write m ∧ Holds xxh3 j' (ms ++ [m])) ∨
      (j'.headers = j.headers ∧ Holds xxh3 j' ms) ∨
      ∃ ops ms', ms'.map Message.header = (j.live ops).map Prod.fst ∧ Holds xxh3 j' ms' := by
  cases op with
  | append m =>
    obtain ⟨hexact, hfree, rfl⟩ := append_eq_ok.mp hok
    exact .inl ⟨m, rfl, rfl, h.write ⟨hop.1, hexact, hop.2⟩ hfree⟩
  | setSnapshotOp op =>
    obtain ⟨hle, rfl⟩ := setSnapshotOp_eq_ok.mp hok
    exact .inr (.inl ⟨rfl, h.setSnapshotOp hle⟩)
  | removeRange ops =>
    obtain ⟨⟨removed, j'⟩, hremove, rfl⟩ := map_eq_ok.mp hok
    simp only [removeRange, bind_eq_ok, require_eq_ok] at hremove
    obtain ⟨-, -, hremove⟩ := hremove
    split at hremove
    · cases hremove
      exact .inr (.inl ⟨rfl, h⟩)
    · obtain ⟨file, hfile, hret⟩ := bind_eq_ok.mp hremove
      obtain ⟨ms', hsub, hheaders, rfl⟩ := h.rewriteWal_live hfile
      cases hret
      refine .inr (.inr ⟨ops, ms', hheaders, h.compacted hsub hheaders ?_⟩)
      rw [hheaders, highestOp_live]
  | drain ops =>
    obtain ⟨⟨drained, j'⟩, hdrain, rfl⟩ := map_eq_ok.mp hok
    simp only [drain, bind_eq_ok] at hdrain
    obtain ⟨entries, -, file, hfile, hret⟩ := hdrain
    obtain ⟨ms', hsub, hheaders, rfl⟩ := h.rewriteWal_live hfile
    cases hret
    refine .inr (.inr ⟨ops, ms', hheaders, h.compacted hsub hheaders ?_⟩)
    rw [hheaders, ← h.above_highestOp_live]
    exact above_congr (le_max_left _ _) h.lastOp

/-! ## Links between the entries -/

def Indexed (j : PrepareJournal) (a : PrepareHeader) : Prop := ∃ s, j.headers s = some a

/-- It is linked with the prepares of the neighbouring ops that the index holds. -/
def LinkedAppend (j : PrepareJournal) : Op → Prop
  | .append m => ∀ e ∈ j.occupied, Linked e.1 m.header ∧ Linked m.header e.1
  | _ => True

instance (j : PrepareJournal) : (op : Op) → Decidable (j.LinkedAppend op)
  | .append _ => inferInstanceAs (Decidable (∀ e ∈ j.occupied, _))
  | .removeRange _ | .drain _ | .setSnapshotOp _ => inferInstanceAs (Decidable True)

def LinkedRun : PrepareJournal → List Op → Prop
  | _, [] => True
  | j, op :: ops => j.LinkedAppend op ∧
    match j.step op with
    | .ok j' => LinkedRun j' ops
    | .error _ => True

instance decidableLinkedRun : (j : PrepareJournal) → (ops : List Op) → Decidable (j.LinkedRun ops)
  | _, [] => inferInstanceAs (Decidable True)
  | j, op :: ops =>
    have : Decidable (match j.step op with
        | .ok j' => LinkedRun j' ops
        | .error _ => True) :=
      match j.step op with
      | .ok j' => decidableLinkedRun j' ops
      | .error _ => inferInstanceAs (Decidable True)
    inferInstanceAs (Decidable (_ ∧ _))

/-- Entries of the index are linked, and so are neighbours in the file. -/
structure AllLinked (j : PrepareJournal) (ms : List Message) : Prop where
  indexed : ∀ a b, j.Indexed a → j.Indexed b → Linked a b
  inFile : (ms.map Message.header).IsChain Linked

theorem indexed_iff (h : Holds xxh3 j ms) :
    j.Indexed a ↔ ∃ s offset, index j.slotCount (ms.map Message.header) s = some (a, offset) := by
  constructor
  · rintro ⟨s, hs⟩
    rw [h.headers, Option.map_eq_some_iff] at hs
    obtain ⟨e, he, rfl⟩ := hs
    exact ⟨s, e.2, he⟩
  · rintro ⟨s, offset, hs⟩
    exact ⟨s, by rw [h.headers, hs]; rfl⟩

theorem indexed_of_getLast (h : Holds xxh3 j ms) (ha : a ∈ (ms.map Message.header).getLast?) :
    j.Indexed a := by
  obtain ⟨hs, hms⟩ := getLast?_eq_some_iff.mp ha
  refine (indexed_iff h).mpr ⟨slotForOp a.op j.slotCount, totalSize hs, ?_⟩
  rw [hms, index_concat, Function.update_self]

theorem AllLinked.empty {snapshotOp slotCount : Nat} :
    AllLinked (empty snapshotOp slotCount) [] where
  indexed := by
    rintro a b ⟨s, hs⟩
    exact absurd hs.symm (Option.some_ne_none a)
  inFile := .nil

section

variable (h : Holds xxh3 j ms)
include h

theorem linkedAppend_append (hlink : j.LinkedAppend (.append m)) (ha : j.Indexed a) :
    Linked a m.header ∧ Linked m.header a := by
  obtain ⟨s, offset, hs⟩ := (indexed_iff h).mp ha
  exact hlink (a, offset) (h.mem_occupied.mpr ⟨s, hs⟩)

theorem AllLinked.write (hl : AllLinked j ms) (hlink : j.LinkedAppend (.append m)) :
    AllLinked (j.write m) (ms ++ [m]) where
  indexed a b ha hb := by
    have hcases : ∀ a, (j.write m).Indexed a → a = m.header ∨ j.Indexed a := by
      rintro a ⟨s, hs⟩
      simp only [PrepareJournal.write, Function.update_apply] at hs
      split at hs
      · exact .inl (Option.some.inj hs).symm
      · exact .inr ⟨s, hs⟩
    obtain rfl | ha := hcases a ha
    · obtain rfl | hb := hcases b hb
      · exact linked_self _
      · exact (linkedAppend_append h hlink hb).2
    · obtain rfl | hb := hcases b hb
      · exact (linkedAppend_append h hlink ha).1
      · exact hl.indexed a b ha hb
  inFile := by
    rw [map_append, isChain_append]
    refine ⟨hl.inFile, by simp, ?_⟩
    intro a ha b hb
    obtain rfl : m.header = b := by simpa using hb
    exact (linkedAppend_append h hlink (indexed_of_getLast h ha)).1

theorem step_allLinked (hl : AllLinked j ms) (hop : op.Admissible xxh3) (hlink : j.LinkedAppend op)
    (hok : j.step op = .ok j') : ∃ ms', Holds xxh3 j' ms' ∧ AllLinked j' ms' := by
  obtain ⟨m, rfl, rfl, h'⟩ | ⟨hheaders, h'⟩ | ⟨range, ms', hlive, h'⟩ := step_cases h hop hok
  · exact ⟨_, h', hl.write h hlink⟩
  · refine ⟨ms, h', ?_, hl.inFile⟩
    intro a b ⟨s, hs⟩ ⟨t, ht⟩
    exact hl.indexed a b ⟨s, hheaders ▸ hs⟩ ⟨t, hheaders ▸ ht⟩
  · -- every entry of the new file comes from the old index
    have hold : ∀ a ∈ ms'.map Message.header, j.Indexed a := by
      intro a ha
      rw [hlive] at ha
      obtain ⟨e, he, rfl⟩ := mem_map.mp ha
      obtain ⟨⟨s, hs⟩, -⟩ := h.mem_live.mp he
      exact (indexed_iff h).mpr ⟨s, e.2, hs⟩
    have hindexed : ∀ a, j'.Indexed a → j.Indexed a := by
      intro a ha
      obtain ⟨s, offset, hs⟩ := (indexed_iff h').mp ha
      exact hold a (mem_of_index hs)
    refine ⟨ms', h', fun a b ha hb => hl.indexed a b (hindexed a ha) (hindexed b hb), ?_⟩
    exact (pairwise_of_forall_mem_list fun a ha b hb =>
      hl.indexed a b (hold a ha) (hold b hb)).isChain

theorem run_holds (hops : ∀ op ∈ ops, op.Admissible xxh3) (hrun : j.run ops = .ok j') :
    ∃ ms', Holds xxh3 j' ms' := by
  refine foldlM_invariant (fun j => ∃ ms, Holds xxh3 j ms) ?_ ⟨ms, h⟩ hrun
  rintro j j' op hop ⟨ms, h⟩ hok
  obtain ⟨m, -, -, h'⟩ | ⟨-, h'⟩ | ⟨-, ms', -, h'⟩ := step_cases h (hops op hop) hok
  · exact ⟨_, h'⟩
  · exact ⟨_, h'⟩
  · exact ⟨_, h'⟩

theorem run_allLinked (hl : AllLinked j ms) (hops : ∀ op ∈ ops, op.Admissible xxh3)
    (hlinked : j.LinkedRun ops) (hrun : j.run ops = .ok j') :
    ∃ ms', Holds xxh3 j' ms' ∧ AllLinked j' ms' := by
  induction ops generalizing j ms with
  | nil =>
    cases hrun
    exact ⟨ms, h, hl⟩
  | cons op ops ih =>
    rw [run, foldlM_cons, bind_eq_ok] at hrun
    obtain ⟨j₁, hstep, hrest⟩ := hrun
    obtain ⟨hlink, hlinked⟩ := hlinked
    rw [hstep] at hlinked
    obtain ⟨ms₁, h₁, hl₁⟩ := step_allLinked h hl (hops op mem_cons_self) hlink hstep
    exact ih h₁ hl₁ (fun x hx => hops x (mem_cons_of_mem _ hx)) hlinked hrest

theorem fileLinked_iff : FileLinked j.storage ↔ (ms.map Message.header).IsChain Linked := by
  rw [FileLinked, h.storage, walHeaders_flatMap h.entries]

/-! ## Reopening -/

/-- The file is whole, every op above the snapshot has the header and the prepare it had, and the
last one is the same. -/
structure Reopened (j r : PrepareJournal) : Prop where
  storage : r.storage = j.storage
  header : ∀ op, j.snapshotOp < op → r.header op = j.header op
  entry : ∀ op h, j.snapshotOp < op → j.header op = some h →
    ∃ m, m.header = h ∧ j.entry h = some m ∧ r.entry h = some m
  lastOp : above j.snapshotOp r.lastOp = above j.snapshotOp j.lastOp

def Reopens (xxh3 : Bytes → Nat) (j : PrepareJournal) : Prop :=
  ∃ r, openWithSlots xxh3 j.storage j.snapshotOp j.slotCount = .ok r ∧ Reopened j r

theorem entry_of_header {op : Nat} (ha : j.header op = some a) :
    ∃ m, m.header = a ∧ j.entry a = some m := by
  obtain ⟨hstored, hop⟩ := Option.filter_eq_some_iff.mp ha
  obtain rfl : a.op = op := by simpa using hop
  obtain ⟨⟨a, offset⟩, hindex, rfl⟩ := Option.map_eq_some_iff.mp ((h.headers _).symm.trans hstored)
  obtain ⟨m, -, hm, hread⟩ := h.readAt_of_index hindex
  have hoffset : j.offsets (slotForOp a.op j.slotCount) = some offset := by
    rw [h.offsets, hindex]
    rfl
  have hheader : (j.headers (slotForOp a.op j.slotCount)).filter (fun h => h.op = a.op) =
      some a := ha
  refine ⟨m, hm, ?_⟩
  simp only [entry, hheader, hoffset, hread, Except.toOption, Option.bind_eq_bind,
    Option.bind_some, Message.tryFrom_bytes]

theorem length_lt_fuel : ms.length < j.storage.length + 1 := by
  have hle := length_le_sum_of_one_le (ms.map fun m => m.bytes.length) fun x hx => by
    obtain ⟨m, hm, rfl⟩ := mem_map.mp hx
    exact Nat.le_trans (by decide) (h.entries m hm).headerSize_le
  rw [length_map, ← length_flatMap, ← h.storage] at hle
  omega

theorem reopens_iff_of_holds : Reopens xxh3 j ↔ FileLinked j.storage := by
  rw [fileLinked_iff h]
  have hne : ¬ j.slotCount = 0 := Nat.pos_iff_ne_zero.mp h.slots
  have hfuel := length_lt_fuel h
  constructor
  · rintro ⟨r, hopen, hr⟩
    by_contra hbroken
    rw [openWithSlots, if_neg hne] at hopen
    obtain ⟨out, hscan, rfl⟩ := map_eq_ok.mp hopen
    rw [h.storage] at hscan hfuel
    refine scanLoop_of_broken [] hfuel h.entries h.fenced .nil hbroken hscan ?_
    exact hr.storage.trans h.storage
  · intro hlinked
    obtain ⟨hheaders, hoffsets, -, hlast, -⟩ := scanned_spec j.slotCount (ms.map Message.header)
    have hscan : scanLoop xxh3 j.slotCount j.snapshotOp j.storage (j.storage.length + 1) {} =
        .ok (scanned j.slotCount (ms.map Message.header), j.storage) := by
      have hscan := scanLoop_of_linked [] hfuel h.entries h.fenced hlinked
      rwa [nil_append, ← h.storage] at hscan
    have hsame : (scanned j.slotCount (ms.map Message.header)).headers = j.headers :=
      funext fun s => (hheaders s).trans (h.headers s).symm
    have hplaced : (scanned j.slotCount (ms.map Message.header)).offsets = j.offsets :=
      funext fun s => (hoffsets s).trans (h.offsets s).symm
    refine ⟨_, by rw [openWithSlots, if_neg hne, hscan]; rfl, ?_⟩
    refine ⟨rfl, ?_, ?_, ?_⟩
    · intro op _
      simp only [header, hsame]
    · intro op a _ ha
      obtain ⟨m, hm, hentry⟩ := entry_of_header h ha
      refine ⟨m, hm, hentry, ?_⟩
      rw [← hentry]
      simp only [entry, hsame, hplaced]
    · rw [h.lastOp]
      simp only [hlast]

end

/-- **The metadata WAL reopens to what it held.** After any successful operations on an empty
journal, whose appends carry sealed prepares within the size limit in any op order: if every append
is linked with the prepares of the neighbouring ops in the index, the file reopens to the journal;
and for any appends it does exactly if neighbouring entries of the file are linked. -/
theorem wal_reopens (xxh3 : Bytes → Nat) {snapshotOp slotCount : Nat} (hn : 1 ≤ slotCount)
    {ops : List Op} (hops : ∀ op ∈ ops, op.Admissible xxh3) {j : PrepareJournal}
    (hrun : (empty snapshotOp slotCount).run ops = .ok j) :
    ((empty snapshotOp slotCount).LinkedRun ops → Reopens xxh3 j) ∧
      (Reopens xxh3 j ↔ FileLinked j.storage) := by
  have hempty : Holds xxh3 (empty snapshotOp slotCount) [] := .empty hn
  constructor
  · intro hlinked
    obtain ⟨ms, h, hl⟩ := run_allLinked hempty .empty hops hlinked hrun
    exact (reopens_iff_of_holds h).mpr ((fileLinked_iff h).mpr hl.inFile)
  · obtain ⟨ms, h⟩ := run_holds hempty hops hrun
    exact reopens_iff_of_holds h

/-! ### Two small runs -/

def rollingHash (bs : Bytes) : Nat :=
  bs.foldl (fun acc b => (31 * acc + b.toNat + 1) % 2 ^ 64) 7

def sealedHeader (op parent : Nat) : PrepareHeader :=
  let h : PrepareHeader :=
    { checksumBody := rollingHash [], size := headerSize, command := .prepare, op, parent }
  { h with checksum := h.identityChecksum rollingHash }

theorem admissible_bodiless {op parent : Nat} (hf hv hsize) :
    (Op.append (bodiless (sealedHeader op parent) hf hv hsize)).Admissible rollingHash := by
  have hbody : (bodiless (sealedHeader op parent) hf hv hsize).body = [] := by
    rw [Message.body, bodiless, drop_eq_nil_iff, length_take, hsize]
    exact min_le_left _ _
  refine ⟨⟨?_, ?_⟩, ?_⟩
  · simp only [bodiless, sealedHeader, PrepareHeader.identityChecksum]
  · rw [hbody]
    simp only [bodiless, sealedHeader]
  · simp only [bodiless, hsize]
    decide

def firstPrepare : Message := bodiless (sealedHeader 1 0) (by decide +kernel) rfl rfl

/-- Op 2 as a child of op 1. -/
def childPrepare : Message :=
  bodiless (sealedHeader 2 firstPrepare.header.checksum) (by decide +kernel) rfl rfl

/-- Op 3 as a child of op 2. -/
def grandchildPrepare : Message :=
  bodiless (sealedHeader 3 childPrepare.header.checksum) (by decide +kernel) rfl rfl

/-- Op 2 of another history. -/
def strayPrepare : Message := bodiless (sealedHeader 2 0) (by decide +kernel) rfl rfl

/-- **An unlinked prepare is lost on reopening.** The index holds an op 2 that is not the child of
op 1, and reopening cuts it off the file. -/
theorem stray_append_is_cut :
    (∀ op ∈ [Op.append firstPrepare, .append strayPrepare], op.Admissible rollingHash) ∧
      ∃ j, (empty 0 4).run [.append firstPrepare, .append strayPrepare] = .ok j ∧
        j.header 2 = some strayPrepare.header ∧
        ∃ r, openWithSlots rollingHash j.storage j.snapshotOp j.slotCount = .ok r ∧
          r.header 2 = none ∧ r.storage ≠ j.storage := by
  constructor
  · intro op hop
    simp only [mem_cons, not_mem_nil, or_false] at hop
    obtain rfl | rfl := hop <;> exact admissible_bodiless _ _ _
  · have hrun : (((empty 0 4).run [.append firstPrepare, .append strayPrepare]).bind fun j =>
        (openWithSlots rollingHash j.storage j.snapshotOp j.slotCount).map fun r =>
          (j.header 2, r.header 2, decide (r.storage = j.storage))) =
        .ok (some strayPrepare.header, none, false) := by decide +kernel
    obtain ⟨j, hj, hopen⟩ := bind_eq_ok.mp hrun
    obtain ⟨r, hr, heq⟩ := map_eq_ok.mp hopen
    simp only [Prod.mk.injEq, decide_eq_false_iff_not] at heq
    exact ⟨j, hj, heq.1, r, hr, heq.2⟩

/-- Ops 1 to 3 over two slots, the third in the place of the snapshotted first, then a drain that
rewrites the file. -/
theorem wal_reopens_after_eviction :
    ∃ j, (empty 0 2).run [.append firstPrepare, .append childPrepare, .setSnapshotOp 1,
        .append grandchildPrepare, .drain ⟨2, 2⟩] = .ok j ∧
      j.header 3 = some grandchildPrepare.header ∧ Reopens rollingHash j := by
  have hrun : (((empty 0 2).run [.append firstPrepare, .append childPrepare, .setSnapshotOp 1,
      .append grandchildPrepare, .drain ⟨2, 2⟩]).map fun j => j.header 3) =
      .ok (some grandchildPrepare.header) := by decide +kernel
  obtain ⟨j, hj, hheader⟩ := map_eq_ok.mp hrun
  refine ⟨j, hj, hheader, (wal_reopens rollingHash (by decide) ?_ hj).1 (by decide +kernel)⟩
  intro op hop
  simp only [mem_cons, not_mem_nil, or_false] at hop
  obtain rfl | rfl | rfl | rfl | rfl := hop
  · exact admissible_bodiless _ _ _
  · exact admissible_bodiless _ _ _
  · trivial
  · exact admissible_bodiless _ _ _
  · trivial

end PrepareJournal

end Iggy
