import Iggy.Metadata.ChangeFeed

/-!
# What the change log retains

The records a log ever appended, in order, are its history. Each ring holds a suffix of the history
of its class and remembers the position of the newest record in front of it (`Retains`), through
every append and a restore under other capacities. A requested record a ring no longer holds lies at
or below the floor, so a scan from there meets every requested record behind it.
-/

namespace Iggy

open List Lib ChangeLog ChangeEntry

/-! ## One ring -/

def lastPosition (records : List ChangeEntry) (before : Position) : Position :=
  (records.getLast?.map position).getD before

theorem lastPosition_append (l l' : List ChangeEntry) (before : Position) :
    lastPosition (l ++ l') before = lastPosition l' (lastPosition l before) := by
  unfold lastPosition
  rw [getLast?_append]
  cases l'.getLast? <;> simp

/-- The ring holds all of `records` but a leading part, whose end it remembers. -/
def Ring.Holds (ring : Ring) (records : List ChangeEntry) : Prop :=
  ∃ evicted, records = evicted ++ ring.entries ∧
    (toLex ring.evictedThrough : Position) = lastPosition evicted (toLex (0, 0))

theorem Ring.trim_evicts (capacity : Nat) (entries : List ChangeEntry) (bytes : Nat)
    (through : Nat × Nat) (timestamp : Nat) :
    ∃ evicted, entries = evicted ++ (Ring.trim capacity entries bytes through timestamp).entries ∧
      (toLex (Ring.trim capacity entries bytes through timestamp).evictedThrough : Position) =
        lastPosition evicted (toLex through) := by
  induction entries generalizing bytes through timestamp with
  | nil => exact ⟨[], rfl, rfl⟩
  | cons entry entries ih =>
    rw [Ring.trim]
    split
    · obtain ⟨evicted, hentries, hthrough⟩ :=
        ih (bytes - entry.body.length) (entry.op, entry.ordinal) entry.timestamp
      refine ⟨entry :: evicted, congrArg (entry :: ·) hentries, hthrough.trans ?_⟩
      exact (lastPosition_append [entry] evicted (toLex through)).symm
    · exact ⟨[], rfl, rfl⟩

variable {ring : Ring} {records : List ChangeEntry}

section

variable (h : ring.Holds records)
include h

theorem Ring.Holds.trim (more : List ChangeEntry) (capacity bytes timestamp : Nat) :
    (Ring.trim capacity (ring.entries ++ more) bytes ring.evictedThrough timestamp).Holds
      (records ++ more) := by
  obtain ⟨evicted, hrecords, hthrough⟩ := h
  obtain ⟨evicted', hentries, hthrough'⟩ :=
    Ring.trim_evicts capacity (ring.entries ++ more) bytes ring.evictedThrough timestamp
  refine ⟨evicted ++ evicted', ?_, ?_⟩
  · rw [hrecords, append_assoc, append_assoc, ← hentries]
  · rw [hthrough', hthrough, lastPosition_append]

theorem Ring.Holds.push (entry : ChangeEntry) : (ring.push entry).Holds (records ++ [entry]) :=
  h.trim [entry] ring.capacity _ _

theorem Ring.Holds.restored (capacity : Nat) : (ring.restored capacity).Holds records := by
  have := h.trim [] capacity (ring.entries.map fun entry => entry.body.length).sum
    ring.evictedThroughTimestamp
  rwa [append_nil, append_nil] at this

theorem Ring.Holds.subset : ring.entries.Sublist records := by
  obtain ⟨evicted, rfl, -⟩ := h
  exact sublist_append_right _ _

variable {e : ChangeEntry}

theorem Ring.Holds.le_evictedThrough (hasc : Ascending position records)
    (he : e ∈ records) (hgone : e ∉ ring.entries) :
    e.position ≤ (toLex ring.evictedThrough : Position) := by
  obtain ⟨evicted, rfl, hthrough⟩ := h
  have hev : e ∈ evicted := (mem_append.mp he).resolve_right hgone
  cases hlast : evicted.getLast? with
  | none => simp [getLast?_eq_none_iff.mp hlast] at hev
  | some last =>
    have hle := (hasc.sublist (sublist_append_left _ _)).le_getLast hev hlast
    rw [hthrough, lastPosition, hlast]
    exact hle

theorem Ring.Holds.evictedThrough : (toLex ring.evictedThrough : Position) = toLex (0, 0) ∨
      ∃ e ∈ records, (toLex ring.evictedThrough : Position) = e.position := by
  obtain ⟨evicted, rfl, hthrough⟩ := h
  rw [hthrough, lastPosition]
  cases hlast : evicted.getLast? with
  | none => exact .inl rfl
  | some last =>
    exact .inr ⟨last, mem_append_left _ (mem_of_getLast? hlast), rfl⟩

end

/-! ## The log -/

def ofClass (c : MetadataChangeClass) (history : List ChangeEntry) : List ChangeEntry :=
  history.filter fun e => e.kind.changeClass = c

variable {c : MetadataChangeClass} {history : List ChangeEntry}

theorem mem_ofClass : e ∈ ofClass c history ↔ e ∈ history ∧ e.kind.changeClass = c := by
  simp [ofClass]

/-- The log after appending `history`, whatever its rings evicted meanwhile. -/
structure Retains (log : ChangeLog) (history : List ChangeEntry) : Prop where
  ascending : Ascending position history
  chronological : history.Pairwise fun a b => a.timestamp ≤ b.timestamp
  bounded : ∀ e ∈ history, 0 < e.op ∧ e.op ≤ log.lastRecordOp ∧ e.ordinal ≤ maxOrdinal
  holds : ∀ c, (log.ring c).Holds (ofClass c history)

def ChangeLog.Keeps (log : ChangeLog) (e : ChangeEntry) : Prop :=
  e ∈ (log.ring e.kind.changeClass).entries

instance (log : ChangeLog) (e : ChangeEntry) : Decidable (log.Keeps e) :=
  inferInstanceAs (Decidable (_ ∈ _))

theorem ChangeEntry.position_lt_of_op {a b : ChangeEntry} (h : a.op < b.op) :
    a.position < b.position :=
  Prod.Lex.toLex_lt_toLex.mpr (.inl h)

theorem Retains.new (resource activity : Nat) : Retains (.new resource activity) [] where
  ascending := List.Pairwise.nil
  chronological := List.Pairwise.nil
  bounded := fun e he => absurd he not_mem_nil
  holds := fun c => by cases c <;> exact ⟨[], rfl, rfl⟩

variable {log : ChangeLog}

theorem Retains.mem_of_mem_ring (h : Retains log history) (he : e ∈ (log.ring c).entries) :
    e ∈ history ∧ e.kind.changeClass = c :=
  mem_ofClass.mp ((h.holds c).subset.subset he)

/-! ### Appending -/

theorem ring_push (log : ChangeLog) (entry : ChangeEntry) (c : MetadataChangeClass) :
    (log.push entry).ring c =
      if entry.kind.changeClass = c then (log.ring c).push entry else log.ring c := by
  unfold push
  split <;> rename_i hc <;> cases c <;> simp [ring, hc]

theorem holds_foldl_push (h : ∀ c, (log.ring c).Holds (ofClass c history))
    (entries : List ChangeEntry) (c : MetadataChangeClass) :
    ((entries.foldl push log).ring c).Holds (ofClass c (history ++ entries)) := by
  induction entries generalizing log history with
  | nil => simpa using h c
  | cons entry entries ih =>
    rw [foldl_cons, append_cons]
    refine ih fun c' => ?_
    have hmore : ofClass c' (history ++ [entry]) =
        ofClass c' history ++ if entry.kind.changeClass = c' then [entry] else [] := by
      simp [ofClass, filter_cons]
    rw [ring_push, hmore]
    split
    · exact (h c').push entry
    · simpa using h c'

variable {header : PrepareHeader} {changes : List AppliedChange}

theorem mem_stamp (h : e ∈ stamp header changes) :
    e.op = header.op ∧ e.ordinal < changes.length ∧ e.timestamp = header.timestamp := by
  obtain ⟨i, hi, rfl⟩ := mem_mapIdx.mp h
  exact ⟨rfl, hi, rfl⟩

theorem stamp_ascending (header : PrepareHeader) (changes : List AppliedChange) :
    Ascending position (stamp header changes) := by
  refine pairwise_iff_getElem.mpr fun i j hi hj hij => ?_
  simp only [stamp, getElem_mapIdx, position]
  exact Prod.Lex.toLex_lt_toLex.mpr (.inr ⟨rfl, hij⟩)

theorem logId_foldl_push (entries : List ChangeEntry) (log : ChangeLog) :
    (entries.foldl push log).logId = log.logId := by
  induction entries generalizing log with
  | nil => rfl
  | cons entry entries ih =>
    rw [foldl_cons, ih]
    unfold push
    split <;> rfl

variable {log' : ChangeLog}

theorem ring_foldl_push (h : ∀ c, log.ring c = log'.ring c) (entries : List ChangeEntry)
    (c : MetadataChangeClass) :
    (entries.foldl push log).ring c = (entries.foldl push log').ring c := by
  induction entries generalizing log log' with
  | nil => exact h c
  | cons entry entries ih =>
    exact ih fun c => by rw [ring_push, ring_push, h c]

theorem append_cases (h : log.append header changes = .ok log') :
    log'.logId = (if header.op = 1 then some header.checksum else log.logId) ∧
    (∀ c, log'.ring c = ((stamp header changes).foldl push log).ring c) ∧
    ((changes = [] ∧ log'.lastRecordOp = log.lastRecordOp) ∨
      (changes.length ≤ 2 ^ 32 ∧ log'.lastRecordOp = header.op)) := by
  have hring : ∀ c, (if header.op = 1 then { log with logId := some header.checksum } else log).ring
      c = log.ring c := by
    intro c
    split <;> cases c <;> rfl
  rw [append] at h
  dsimp only at h
  split at h
  case isTrue hnil =>
    cases h
    subst hnil
    exact ⟨by split <;> rfl, hring, .inl ⟨rfl, by split <;> rfl⟩⟩
  case isFalse =>
    split at h
    · cases h
    split at h
    · cases h
    rename_i hlen
    cases h
    refine ⟨(logId_foldl_push _ _).trans (by split <;> rfl), fun c => ?_,
      .inr ⟨not_lt.mp hlen, rfl⟩⟩
    rw [← ring_foldl_push hring]
    cases c <;> rfl

theorem Retains.append (h : Retains log history) (hop : log.lastRecordOp < header.op)
    (hts : ∀ e ∈ history, e.timestamp ≤ header.timestamp)
    (happ : log.append header changes = .ok log') :
    Retains log' (history ++ stamp header changes) := by
  obtain ⟨-, hring, hlast⟩ := append_cases happ
  refine ⟨h.ascending.append (stamp_ascending header changes) fun a ha b hb => ?_,
    pairwise_append.mpr ⟨h.chronological, ?_, fun a ha b hb => ?_⟩, fun e he => ?_,
    fun c => hring c ▸ holds_foldl_push h.holds _ c⟩
  · apply position_lt_of_op
    rw [(mem_stamp hb).1]
    exact (h.bounded a ha).2.1.trans_lt hop
  · refine pairwise_of_forall_mem_list fun a ha b hb => ?_
    rw [(mem_stamp ha).2.2, (mem_stamp hb).2.2]
  · rw [(mem_stamp hb).2.2]
    exact hts a ha
  · obtain he | he := mem_append.mp he
    · obtain ⟨hpos, hle, hord⟩ := h.bounded e he
      exact ⟨hpos, by omega, hord⟩
    · obtain ⟨heop, hord, -⟩ := mem_stamp he
      have hne : changes ≠ [] := ne_nil_of_length_pos (by omega)
      obtain ⟨hlen, hlast⟩ := hlast.resolve_left fun hnil => hne hnil.1
      have hmax : e.ordinal ≤ maxOrdinal := by
        unfold maxOrdinal
        omega
      exact ⟨by omega, by omega, hmax⟩

theorem ring_restored (log : ChangeLog) (resource activity : Nat) (c : MetadataChangeClass) :
    ∃ capacity, (log.restored resource activity).ring c = (log.ring c).restored capacity := by
  cases c
  · exact ⟨resource, rfl⟩
  · exact ⟨activity, rfl⟩

theorem Retains.restored (h : Retains log history) (resource activity : Nat) :
    Retains (log.restored resource activity) history where
  ascending := h.ascending
  chronological := h.chronological
  bounded := h.bounded
  holds := fun c => by
    obtain ⟨capacity, hring⟩ := ring_restored log resource activity c
    exact hring ▸ (h.holds c).restored capacity

/-! ### Evicted records stay evicted -/

theorem Ring.mem_of_mem_trim {capacity bytes timestamp : Nat} {entries : List ChangeEntry}
    {through : Nat × Nat} (h : e ∈ (Ring.trim capacity entries bytes through timestamp).entries) :
    e ∈ entries := by
  obtain ⟨evicted, hentries, -⟩ := Ring.trim_evicts capacity entries bytes through timestamp
  rw [hentries]
  exact mem_append_right _ h

theorem mem_ring_foldl_push {entries : List ChangeEntry}
    (h : e ∈ ((entries.foldl push log).ring c).entries) :
    e ∈ (log.ring c).entries ∨ e ∈ entries := by
  induction entries generalizing log with
  | nil => exact .inl h
  | cons entry entries ih =>
    obtain h | h := ih h
    · rw [ring_push] at h
      split at h
      · obtain h | h := mem_append.mp (Ring.mem_of_mem_trim h)
        · exact .inl h
        · exact .inr (mem_singleton.mp h ▸ mem_cons_self)
      · exact .inl h
    · exact .inr (mem_cons_of_mem _ h)

theorem keeps_of_append (happ : log.append header changes = .ok log')
    (hold : e ∉ stamp header changes) (h : log'.Keeps e) : log.Keeps e := by
  unfold Keeps at h
  rw [(append_cases happ).2.1] at h
  exact (mem_ring_foldl_push h).resolve_right hold

theorem keeps_of_restored {resource activity : Nat} (h : (log.restored resource activity).Keeps e) :
    log.Keeps e := by
  obtain ⟨capacity, hring⟩ := ring_restored log resource activity e.kind.changeClass
  unfold Keeps at h
  rw [hring] at h
  exact Ring.mem_of_mem_trim h

end Iggy
