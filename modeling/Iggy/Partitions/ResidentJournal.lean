import Iggy.Wire.Header
import Iggy.Lib.SortedMap
import Mathlib.Order.Lattice

/-!
# The resident journal of a partition

Source: header.rs:1221-1228; plane_helpers.rs:320-333; partitions/src/journal.rs:399-471, 627-711,
885-925, 1193-1224.

The prepares a partition keeps in memory, in the order they were appended, and the ring of those a
flush evicted. An op may stand in the journal more than once: its header is that of the first copy
(`first_header_by_op`), its bytes are those of the last one (`op_to_storage_offset`), so the two can
be of different prepares. The hash functions are the parameters `xxh3` (headers) and
`calculateChecksum` (bodies).
-/

namespace Iggy

open List Lib Option

/-- A frame the journal holds: its header and the bytes past it. -/
structure ResidentPrepare where
  header : PrepareHeader
  body : Bytes
  deriving DecidableEq

namespace ResidentPrepare

def length (p : ResidentPrepare) : Nat := headerSize + p.body.length

/-- `frame_body`: what `checksum_body` covers, the body as far as `size` reaches. -/
def frameBody (p : ResidentPrepare) : Bytes :=
  if p.header.size ≤ headerSize ∨ p.length < p.header.size then []
  else p.body.take (p.header.size - headerSize)

end ResidentPrepare

/-- `verify_prepare_integrity`. An unsealed header and a zero `checksum_body` have nothing to
verify. -/
def verifyPrepareIntegrity (xxh3 calculateChecksum : Bytes → Nat) (p : ResidentPrepare) :
    Except String Unit :=
  if p.header.checksum ≠ checksumUnsealed ∧ p.header.identityChecksum xxh3 ≠ p.header.checksum then
    .error "prepare header does not match its own checksum"
  else if p.header.checksumBody ≠ 0 ∧ calculateChecksum p.frameBody ≠ p.header.checksumBody then
    .error "prepare body does not match its checksum"
  else .ok ()

theorem verifyPrepareIntegrity_eq_ok {xxh3 calculateChecksum : Bytes → Nat}
    {p : ResidentPrepare} :
    verifyPrepareIntegrity xxh3 calculateChecksum p = .ok () ↔
      (p.header.checksum ≠ checksumUnsealed → p.header.identityChecksum xxh3 = p.header.checksum) ∧
      (p.header.checksumBody ≠ 0 → calculateChecksum p.frameBody = p.header.checksumBody) := by
  unfold verifyPrepareIntegrity
  split
  case isTrue h => simpa using fun hseal => absurd (hseal h.1) h.2
  case isFalse hheader =>
    split
    case isTrue h => simpa using fun _ => ⟨h.1, h.2⟩
    case isFalse hbody =>
      simp only [true_iff]
      exact ⟨fun hsealed => not_not.mp fun hne => hheader ⟨hsealed, hne⟩,
        fun hsealed => not_not.mp fun hne => hbody ⟨hsealed, hne⟩⟩

/-- The resident entries in append order, the evicted ring and its ceilings. -/
structure ResidentJournal where
  entries : List ResidentPrepare
  evictedRing : SortedMap Nat ResidentPrepare
  evictedThrough : Nat
  ringCapacity : Nat
  ringBytesMax : Nat
  repairRetention : Bool

namespace ResidentJournal

variable (j : ResidentJournal)

/-- `header_by_op`: the first resident copy answers. -/
def headerByOp (op : Nat) : Option PrepareHeader :=
  (j.entries.find? (·.header.op = op)).map (·.header)

def holdsOp (op : Nat) : Bool := j.entries.any (·.header.op = op)

/-- The bytes of the last resident copy, else of the ring: what a flush writes for `op`. -/
def repairEntry (op : Nat) : Option ResidentPrepare :=
  (j.entries.reverse.find? (·.header.op = op)).or (j.evictedRing.get? op)

def repairHeader (op : Nat) : Option PrepareHeader :=
  (j.headerByOp op).or ((j.evictedRing.get? op).map (·.header))

def append (p : ResidentPrepare) : ResidentJournal :=
  { j with entries := j.entries ++ [p] }

/-- A stable sort: the first copy of an op stays the first. -/
def sortByOp : ResidentJournal :=
  { j with entries := j.entries.mergeSort fun a b => a.header.op ≤ b.header.op }

/-- Drop the lowest op while the ring is over one of its ceilings. -/
def trimEntries (capacity bytesMax : Nat) :
    List (Nat × ResidentPrepare) → List (Nat × ResidentPrepare)
  | [] => []
  | entry :: rest =>
    let bytes := ((entry :: rest).map (·.2.length)).sum
    if capacity < (entry :: rest).length ∨ bytesMax < bytes ∧ 1 < (entry :: rest).length then
      trimEntries capacity bytesMax rest
    else entry :: rest

variable (capacity bytesMax : Nat)

theorem trimEntries_sublist (l : List (Nat × ResidentPrepare)) :
    (trimEntries capacity bytesMax l).Sublist l := by
  induction l with
  | nil => exact .slnil
  | cons entry rest ih =>
    simp only [trimEntries]
    split
    · exact ih.cons entry
    · exact .refl _

variable (ring : SortedMap Nat ResidentPrepare)

def trimRing : SortedMap Nat ResidentPrepare :=
  ⟨trimEntries capacity bytesMax ring.entries,
    ring.sorted.sublist (trimEntries_sublist capacity bytesMax ring.entries)⟩

/-- One evicted entry enters the ring. -/
def retainEvicted (p : ResidentPrepare) : SortedMap Nat ResidentPrepare :=
  trimRing capacity bytesMax (ring.upsert p.header.op fun _ => p)

def evictPrefix (count : Nat) : ResidentJournal :=
  let evicted := j.entries.take count
  { j with
    entries := j.entries.drop count
    evictedThrough := (evicted.map (·.header.op)).foldl max j.evictedThrough
    evictedRing :=
      if j.repairRetention then
        evicted.foldl (retainEvicted j.ringCapacity j.ringBytesMax) j.evictedRing
      else j.evictedRing }

/-- `remove_range`: ops are 1-based, and removed entries do not enter the ring. -/
def removeRange (first last : Nat) : Option ResidentJournal :=
  if first = 0 then none
  else some { j with entries := j.entries.filter fun p => !(first ≤ p.header.op && p.header.op ≤ last) }

/-! ## What the journal holds -/

variable {j : ResidentJournal} {op : Nat} {p : ResidentPrepare}

/-- A prepare that is resident or in the ring, where the ring keeps it under its op. -/
def Holds (j : ResidentJournal) (p : ResidentPrepare) : Prop :=
  p ∈ j.entries ∨ ∃ op, j.evictedRing.get? op = some p

theorem holdsOp_iff : j.holdsOp op = true ↔ ∃ p ∈ j.entries, p.header.op = op := by
  simp [holdsOp]

theorem headerByOp_eq_none : j.headerByOp op = none ↔ j.holdsOp op = false := by
  simp [headerByOp, holdsOp]

theorem exists_of_repairHeader {h : PrepareHeader} (hh : j.repairHeader op = some h) :
    ∃ p, j.Holds p ∧ p.header = h := by
  obtain hh | ⟨-, hh⟩ := or_eq_some_iff.mp hh
  · obtain ⟨p, hfind, rfl⟩ := map_eq_some_iff.mp hh
    exact ⟨p, .inl (mem_of_find?_eq_some hfind), rfl⟩
  · obtain ⟨p, hget, rfl⟩ := map_eq_some_iff.mp hh
    exact ⟨p, .inr ⟨op, hget⟩, rfl⟩

theorem holds_of_repairEntry (hp : j.repairEntry op = some p) : j.Holds p := by
  obtain hp | ⟨-, hp⟩ := or_eq_some_iff.mp hp
  · exact .inl (mem_reverse.mp (mem_of_find?_eq_some hp))
  · exact .inr ⟨op, hp⟩

theorem exists_repairEntry {h : PrepareHeader} (hh : j.repairHeader op = some h) :
    ∃ p, j.repairEntry op = some p := by
  unfold repairEntry
  cases hfind : j.entries.reverse.find? (·.header.op = op) with
  | some p => exact ⟨p, rfl⟩
  | none =>
    have hnone : j.headerByOp op = none := by
      simpa [headerByOp] using hfind
    rw [repairHeader, hnone, none_or] at hh
    obtain ⟨p, hget, -⟩ := map_eq_some_iff.mp hh
    exact ⟨p, by simpa using hget⟩

theorem repairHeader_eq_none : j.repairHeader op = none ↔
    j.holdsOp op = false ∧ j.evictedRing.get? op = none := by
  simp [repairHeader, or_eq_none_iff, headerByOp_eq_none]

variable {ring : SortedMap Nat ResidentPrepare}

theorem get?_trimRing {capacity bytesMax : Nat}
    (h : (trimRing capacity bytesMax ring).get? op = some p) : ring.get? op = some p :=
  SortedMap.mem_entries.mp
    ((trimEntries_sublist capacity bytesMax ring.entries).subset (SortedMap.mem_entries.mpr h))

theorem get?_retainEvicted {capacity bytesMax : Nat} {evicted : List ResidentPrepare}
    (h : (evicted.foldl (retainEvicted capacity bytesMax) ring).get? op = some p) :
    ring.get? op = some p ∨ p ∈ evicted ∧ p.header.op = op := by
  induction evicted generalizing ring with
  | nil => exact .inl h
  | cons q rest ih =>
    obtain h | ⟨hmem, hop⟩ := ih h
    · have h := get?_trimRing h
      rw [SortedMap.get?_upsert] at h
      split at h
      case isTrue hop => exact .inr (some.inj h ▸ ⟨mem_cons_self, hop.symm⟩)
      case isFalse => exact .inl h
    · exact .inr ⟨mem_cons_of_mem q hmem, hop⟩

theorem get?_evictPrefix {count : Nat} (h : (j.evictPrefix count).evictedRing.get? op = some p) :
    j.evictedRing.get? op = some p ∨ p ∈ j.entries.take count ∧ p.header.op = op := by
  simp only [evictPrefix] at h
  split at h
  · exact get?_retainEvicted h
  · exact .inl h

theorem holds_of_holds_evictPrefix {count : Nat} (h : (j.evictPrefix count).Holds p) :
    j.Holds p := by
  obtain h | ⟨op, h⟩ := h
  · exact .inl (mem_of_mem_drop h)
  · obtain h | ⟨hmem, -⟩ := get?_evictPrefix h
    · exact .inr ⟨op, h⟩
    · exact .inl (mem_of_mem_take hmem)

theorem holds_append {q : ResidentPrepare} (h : (j.append q).Holds p) : p = q ∨ j.Holds p := by
  obtain h | h := h
  · obtain h | h := mem_append.mp h
    · exact .inr (.inl h)
    · exact .inl (mem_singleton.mp h)
  · exact .inr (.inr h)

theorem holds_sortByOp : j.sortByOp.Holds p ↔ j.Holds p := by
  simp only [Holds, sortByOp, mem_mergeSort]

end ResidentJournal

end Iggy
