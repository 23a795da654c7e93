import Iggy.Metadata.FeedRetention

/-!
# One page of the change feed

What the floor, the cursor check, the latest cursor and the scan of a page mean for the history of
the log. A valid cursor lies at or above the floor (`check_valid`), a cursor with an evicted record
behind it is expired (`check_expired`), and a scan from a position at or above the floor examines a
leading part of the requested history behind it (`FeedQuery.scan_spec`).
-/

namespace Iggy

open List Lib MetadataChangeCursor

/-! ## The view of a log -/

section View

open LogView

variable {log : ChangeLog} {history : List ChangeEntry} {v : LogView} {ring : Ring}

theorem mem_rings {v : LogView} :
    ring ∈ v.rings ↔ ∃ c, v.groups.containsClass c = true ∧ v.log.ring c = ring := by
  simp only [rings, mem_map, mem_filter]
  constructor
  · rintro ⟨c, ⟨-, hc⟩, rfl⟩
    exact ⟨c, hc, rfl⟩
  · rintro ⟨c, hc, rfl⟩
    exact ⟨c, ⟨by cases c <;> simp [changeClasses], hc⟩, rfl⟩

theorem le_highestEvicted {rings : List Ring} (h : ring ∈ rings) :
    (toLex ring.evictedThrough : Position) ≤ highestEvicted rings :=
  le_foldl_max (mem_cons_of_mem _ (mem_map_of_mem h))

theorem floor_le_highestEvicted (v : LogView) :
    v.floor ≤ highestEvicted (changeClasses.map v.log.ring) := by
  obtain h | h := mem_cons.mp
    (foldl_max_mem (toLex (0, 0)) (v.rings.map fun ring => (toLex ring.evictedThrough : Position)))
  · exact le_of_eq_of_le h (le_foldl_max (by simp))
  · obtain ⟨ring, hring, heq⟩ := mem_map.mp h
    obtain ⟨c, -, rfl⟩ := mem_rings.mp hring
    refine le_of_eq_of_le heq.symm (le_highestEvicted (mem_map_of_mem ?_))
    cases c <;> simp [changeClasses]

variable {e : ChangeEntry}

/-- A requested record a ring no longer holds lies at or below the floor. -/
theorem Retains.le_floor (h : Retains v.log history) (he : e ∈ history)
    (hc : v.groups.containsClass e.kind.changeClass = true) (hgone : ¬ v.log.Keeps e) :
    e.position ≤ v.floor :=
  ((h.holds _).le_evictedThrough (h.ascending.filter _) (mem_ofClass.mpr ⟨he, rfl⟩) hgone).trans
    (le_highestEvicted (mem_rings.mpr ⟨_, hc, rfl⟩))

/-- The floor is the initial position or that of a record. -/
theorem Retains.floor_cases (h : Retains v.log history) :
    v.floor = toLex (0, 0) ∨ ∃ e ∈ history, v.floor = e.position := by
  obtain hz | hr := mem_cons.mp
    (foldl_max_mem (toLex (0, 0)) (v.rings.map fun ring => (toLex ring.evictedThrough : Position)))
  · exact .inl hz
  · obtain ⟨ring, hring, heq⟩ := mem_map.mp hr
    obtain ⟨c, -, rfl⟩ := mem_rings.mp hring
    obtain hz | ⟨e, he, hpos⟩ := (h.holds c).evictedThrough
    · exact .inl (heq.symm.trans hz)
    · exact .inr ⟨e, (mem_ofClass.mp he).1, heq.symm.trans hpos⟩

theorem Retains.position_pos (h : Retains log history) (he : e ∈ history) (n : Nat) :
    (toLex (0, n) : Position) < e.position :=
  Prod.Lex.toLex_lt_toLex.mpr (.inl (h.bounded e he).1)

/-! ### Cursors -/

/-- The cursor is before the first record or names a record of the history. -/
def Names (history : List ChangeEntry) (c : MetadataChangeCursor) : Prop :=
  c.op = 0 ∨ ∃ e ∈ history, c = e.cursor c.logId

theorem entryAt_spec {position : Position} (h : entryAt position ring = some e) :
    e ∈ ring.entries ∧ e.position = position := by
  obtain ⟨hget, hpos⟩ := Option.filter_eq_some_iff.mp h
  exact ⟨mem_of_getElem? hget, of_decide_eq_true hpos⟩

section

variable (h : Retains v.log history)
include h

theorem findSome_entryAt {position : Position}
    (hfind : (changeClasses.findSome? fun c => entryAt position (v.log.ring c)) = some e) :
    e ∈ history ∧ e.position = position := by
  obtain ⟨c, -, hc⟩ := exists_of_findSome?_eq_some hfind
  obtain ⟨hmem, hpos⟩ := entryAt_spec hc
  exact ⟨(h.mem_of_mem_ring hmem).1, hpos⟩

variable {start : Position}

theorem check_valid {c : MetadataChangeCursor} (hcheck : v.check c = .valid start) :
    v.log.logId = some c.logId ∧ Names history c ∧ v.floor ≤ start ∧
      ∀ e ∈ history, start < e.position ↔ c.position < e.position := by
  unfold check at hcheck
  split at hcheck
  · cases hcheck
  rename_i hid
  refine ⟨not_not.mp hid, ?_⟩
  split at hcheck
  case isTrue hzero =>
    split_ifs at hcheck with hfloor
    cases hcheck
    refine ⟨.inl hzero, hfloor.le, fun e he => iff_of_true (h.position_pos he 0) ?_⟩
    rw [position, hzero]
    exact h.position_pos he _
  case isFalse =>
    split at hcheck
    · cases hcheck
    split at hcheck
    case h_2 => split at hcheck <;> cases hcheck
    case h_1 e hfind =>
      obtain ⟨he, hpos⟩ := findSome_entryAt h hfind
      split at hcheck
      · cases hcheck
      rename_i hsum
      split at hcheck
      · cases hcheck
      rename_i hfloor
      cases hcheck
      refine ⟨.inr ⟨e, he, ?_⟩, (not_le.mp hfloor).le, fun _ _ => Iff.rfl⟩
      obtain ⟨hop, hord⟩ := Prod.mk.inj (congrArg ofLex hpos)
      rw [ChangeEntry.cursor, hop, hord, not_not.mp hsum]

theorem check_expired {c : MetadataChangeCursor} (hid : v.log.logId = some c.logId)
    (hnames : Names history c) (hhead : v.log.lastRecordOp ≤ v.headOp) (he : e ∈ history)
    (hbehind : c.position < e.position) (hfloor : e.position ≤ v.floor) : v.check c = .expired := by
  unfold check
  rw [if_neg (not_not.mpr hid)]
  by_cases hzero : c.op = 0
  · rw [if_pos hzero, if_neg fun hz => ?_]
    exact absurd (h.position_pos he 0) (not_lt.mpr (hz ▸ hfloor))
  obtain hz | ⟨d, hd, hcd⟩ := hnames
  · exact absurd hz hzero
  have hop : c.op = d.op := congrArg op hcd
  have hpos : c.position = d.position := congrArg position hcd
  rw [if_neg hzero, if_neg (not_lt.mpr (hop ▸ (h.bounded d hd).2.1.trans hhead))]
  have hle : c.position ≤ v.floor := (hbehind.trans_le hfloor).le
  split
  case h_1 found hfind =>
    obtain ⟨hf, hfpos⟩ := findSome_entryAt h hfind
    obtain rfl := h.ascending.inj hf hd (hfpos.trans hpos)
    have hsum : found.checksum = c.checksum := (congrArg checksum hcd).symm
    rw [if_neg (not_not.mpr hsum), if_pos hle]
  case h_2 => rw [if_pos (hle.trans (floor_le_highestEvicted v))]

/-! ### The newest record -/

theorem latestCursor_spec (logId : Nat) :
    (v.latestCursor logId).logId = logId ∧ Names history (v.latestCursor logId) ∧
      ∀ e ∈ history, v.groups.containsClass e.kind.changeClass = true → v.log.Keeps e →
        e.position ≤ (v.latestCursor logId).position := by
  have hlast : ∀ e ∈ history, v.groups.containsClass e.kind.changeClass = true → v.log.Keeps e →
      ∃ last ∈ v.rings.filterMap (fun ring => ring.entries.getLast?),
        e.position ≤ last.position := by
    intro e he hc hkeep
    have hasc : Ascending ChangeEntry.position (v.log.ring e.kind.changeClass).entries :=
      (h.ascending.filter _).sublist (h.holds _).subset
    cases hlast : (v.log.ring e.kind.changeClass).entries.getLast? with
    | none => exact absurd (getLast?_eq_none_iff.mp hlast ▸ hkeep : e ∈ []) not_mem_nil
    | some last =>
      exact ⟨last, mem_filterMap.mpr ⟨_, mem_rings.mpr ⟨_, hc, rfl⟩, hlast⟩,
        hasc.le_getLast hkeep hlast⟩
  unfold latestCursor
  split
  case h_1 hnone =>
    refine ⟨rfl, .inl rfl, fun e he hc hkeep => ?_⟩
    obtain ⟨last, hmem, -⟩ := hlast e he hc hkeep
    rw [maxByKey_eq_none.mp hnone] at hmem
    cases hmem
  case h_2 newest hnewest =>
    obtain ⟨hmem, hmax⟩ := maxByKey_spec hnewest
    obtain ⟨ring, hring, hget⟩ := mem_filterMap.mp hmem
    obtain ⟨c, -, rfl⟩ := mem_rings.mp hring
    refine ⟨rfl, .inr ⟨newest, (h.mem_of_mem_ring (mem_of_getLast? hget)).1, rfl⟩, ?_⟩
    intro e he hc hkeep
    obtain ⟨last, hl, hle⟩ := hlast e he hc hkeep
    exact hle.trans (hmax last hl)

/-! ### Scanning -/

theorem mem_afterStart {c : MetadataChangeClass} {since : Option Nat} :
    e ∈ afterStart start since (v.log.ring c) ↔
      e ∈ (v.log.ring c).entries ∧ start < e.position ∧ ∀ t ∈ since, t ≤ e.timestamp := by
  have hsub : (v.log.ring c).entries.Sublist history :=
    (h.holds c).subset.trans filter_sublist
  have hpos := @mem_drop_takeWhile_le _ _ _ ChangeEntry.position _ e
    ((h.ascending.sublist hsub).imp le_of_lt) start
  unfold afterStart
  cases since with
  | none => simpa [partitionPoint] using hpos
  | some t =>
    have htime := @mem_drop_takeWhile_lt _ _ _ ChangeEntry.timestamp _ e
      (h.chronological.sublist hsub) t
    dsimp only [partitionPoint]
    rw [mem_drop_max, hpos, htime]
    simp only [Option.mem_def, Option.some.injEq, forall_eq']
    tauto

/-- From a position at or above the floor, the scan meets every requested record. -/
theorem merged_spec (hfloor : v.floor ≤ start) (since : Option Nat) :
    v.merged start since = history.filter fun e =>
      v.groups.containsClass e.kind.changeClass ∧ start < e.position ∧
        ∀ t ∈ since, t ≤ e.timestamp := by
  refine Ascending.eq_of_mem_iff (Ascending.foldl_mergeByKey List.Pairwise.nil ?_ ?_)
    (h.ascending.filter _) fun e => ?_
  · intro l hl
    obtain ⟨ring, hring, rfl⟩ := mem_map.mp hl
    obtain ⟨c, -, rfl⟩ := mem_rings.mp hring
    exact ((h.ascending.filter _).sublist (h.holds c).subset).sublist (drop_sublist _ _)
  · -- records of two classes have different positions
    refine pairwise_cons.mpr ⟨fun l _ a ha => absurd ha not_mem_nil, ?_⟩
    refine pairwise_map.mpr (pairwise_map.mpr (List.Pairwise.filter _ ?_))
    have hclasses : changeClasses.Pairwise (· ≠ ·) := by decide
    refine hclasses.imp fun {c c'} hne a ha b hb hpos => hne ?_
    obtain ⟨ha, hac⟩ := h.mem_of_mem_ring ((mem_afterStart h).mp ha).1
    obtain ⟨hb, hbc⟩ := h.mem_of_mem_ring ((mem_afterStart h).mp hb).1
    rw [← hac, ← hbc, h.ascending.inj ha hb hpos]
  · rw [merged, mem_foldl_mergeByKey, mem_filter, decide_eq_true_iff]
    constructor
    · rintro (he | ⟨l, hl, he⟩)
      · cases he
      obtain ⟨ring, hring, rfl⟩ := mem_map.mp hl
      obtain ⟨c, hc, rfl⟩ := mem_rings.mp hring
      obtain ⟨hmem, hstart, hsince⟩ := (mem_afterStart h).mp he
      obtain ⟨hhist, hclass⟩ := h.mem_of_mem_ring hmem
      exact ⟨hhist, hclass ▸ hc, hstart, hsince⟩
    · rintro ⟨he, hc, hstart, hsince⟩
      have hkeep : v.log.Keeps e := by
        by_contra hgone
        exact absurd (hfloor.trans_lt hstart) (not_lt.mpr (h.le_floor he hc hgone))
      exact .inr ⟨_, mem_map_of_mem (mem_rings.mpr ⟨_, hc, rfl⟩),
        (mem_afterStart h).mpr ⟨hkeep, hstart, hsince⟩⟩

end

/-- It returns the wanted entries of a leading part, and without `has_more` it stopped at the upper
time bound or at the end. -/
theorem scanEntries_spec (groups : MetadataChangeGroups) («until» : Option Nat) (limit : Nat)
    (entries : List ChangeEntry) (examined bytes : Nat) (page : ScannedPage) :
    ∃ seen rest, entries = seen ++ rest ∧
      (scanEntries groups «until» limit entries examined bytes page).records =
        page.records ++ (seen.filter fun e => groups e.kind.group).map .ofEntry ∧
      (scanEntries groups «until» limit entries examined bytes page).lastExamined =
        seen.getLast?.or page.lastExamined ∧
      (∀ e ∈ seen, ∀ t ∈ «until», e.timestamp ≤ t) ∧
      ((scanEntries groups «until» limit entries examined bytes page).hasMore = true ∨
        ∀ e ∈ rest.head?, ∃ t ∈ «until», t < e.timestamp) := by
  induction entries generalizing examined bytes page with
  | nil => exact ⟨[], [], rfl, by simp [scanEntries], by simp [scanEntries],
      by simp, .inr (by simp)⟩
  | cons entry entries ih =>
    rw [scanEntries]
    split
    case isTrue hlate =>
      exact ⟨[], entry :: entries, rfl, by simp, by simp, by simp, .inr (by simpa using hlate)⟩
    case isFalse hin =>
      split
      · exact ⟨[], entry :: entries, rfl, by simp, by simp, by simp, .inl rfl⟩
      · obtain ⟨seen, rest, rfl, hrecords, hlast, huntil, hstop⟩ := ih (examined + 1)
          (bytes + wantedSize groups entry) (page.examine groups entry)
        refine ⟨entry :: seen, rest, rfl, hrecords.trans ?_, hlast.trans ?_, ?_, hstop⟩
        · by_cases hg : groups entry.kind.group <;> simp [ScannedPage.examine, hg]
        · rw [getLast?_cons]
          cases seen.getLast? <;> rfl
        · exact forall_mem_cons.mpr
            ⟨fun t ht => not_lt.mp fun hlt => hin ⟨t, ht, hlt⟩, huntil⟩

theorem scan_hasMore {since «until» : Option Nat} {limit : Nat} (hlimit : 0 < limit)
    (hmore : (v.scan start since «until» limit).hasMore = true) :
    ∃ e, (v.scan start since «until» limit).lastExamined = some e := by
  unfold scan at hmore ⊢
  cases hentries : v.merged start since with
  | nil => rw [hentries, scanEntries] at hmore; cases hmore
  | cons entry entries =>
    rw [hentries, scanEntries] at hmore
    rw [scanEntries]
    split at hmore
    · cases hmore
    rename_i hin
    -- the first entry meets none of the budgets
    have hfirst : ¬ ({} : ScannedPage).Full limit 0 0
        (wantedSize v.groups entry) := by
      rintro (h | h | h)
      · cases h
      · exact absurd h hlimit.ne
      · exact h.1 rfl
    rw [if_neg hin, if_neg hfirst]
    obtain ⟨seen, -, -, -, hlast, -⟩ := scanEntries_spec v.groups «until» limit entries (0 + 1)
      (0 + wantedSize v.groups entry) (({} : ScannedPage).examine v.groups entry)
    rw [hlast]
    cases seen.getLast? with
    | none => exact ⟨entry, rfl⟩
    | some last => exact ⟨last, rfl⟩

end View

/-! ## What a reader asks for -/

structure FeedQuery where
  groups : MetadataChangeGroups
  since : Option Nat
  «until» : Option Nat
  limit : Nat

namespace FeedQuery

variable (q : FeedQuery)

def query (start : MetadataChangeStart) : MetadataChangesQuery :=
  ⟨start, q.since, q.until, q.limit⟩

def view (log : ChangeLog) (headOp : Nat) : LogView := ⟨log, q.groups, headOp⟩

/-- The record is of a requested group and within the time bounds. -/
def Asks (e : ChangeEntry) : Prop :=
  q.groups e.kind.group = true ∧ (∀ t ∈ q.since, t ≤ e.timestamp) ∧ ∀ t ∈ q.until, e.timestamp ≤ t

instance (q : FeedQuery) : DecidablePred q.Asks := fun _ => inferInstanceAs (Decidable (_ ∧ _))

/-- The records of a history a reader asks for, behind one position and up to another. -/
def between (history : List ChangeEntry) (start upto : Position) : List MetadataChangeRecord :=
  (history.filter fun e => q.Asks e ∧ start < e.position ∧ e.position ≤ upto).map .ofEntry

/-- A scan from a position at or above the floor returns what the reader asks for up to the last
examined record; without `has_more` that is everything. -/
theorem scan_spec {q : FeedQuery} {log : ChangeLog} {headOp : Nat} {history : List ChangeEntry}
    (h : Retains log history) {start : Position} (hfloor : (q.view log headOp).floor ≤ start) :
    let page := (q.view log headOp).scan start q.since q.until q.limit
    ∃ upto, start ≤ upto ∧ page.records = q.between history start upto ∧
      (page.lastExamined = none → upto = start) ∧
      (∀ e, page.lastExamined = some e → e ∈ history ∧ start < e.position ∧ upto = e.position) ∧
      (page.hasMore = false →
        ∀ e ∈ history, q.Asks e → start < e.position → e.position ≤ upto) := by
  intro page
  obtain ⟨seen, rest, hmerged, hrecords, hlast, huntil, hstop⟩ := scanEntries_spec q.groups q.until
    q.limit ((q.view log headOp).merged start q.since) 0 0 {}
  have hspec := (merged_spec (v := q.view log headOp) h hfloor q.since).symm.trans hmerged
  have hmem : ∀ e, e ∈ seen ++ rest ↔ e ∈ history ∧
      q.groups.containsClass e.kind.changeClass = true ∧ start < e.position ∧
      ∀ t ∈ q.since, t ≤ e.timestamp := by
    intro e
    rw [← hspec, mem_filter, decide_eq_true_iff]
    rfl
  have hasc : Ascending ChangeEntry.position (seen ++ rest) := hspec ▸ h.ascending.filter _
  have hchron : (seen ++ rest).Pairwise fun a b => a.timestamp ≤ b.timestamp :=
    hspec ▸ h.chronological.sublist filter_sublist
  have hseen : ∀ e ∈ seen, start < e.position ∧ e.position ≤ lastPosition seen start := by
    intro e he
    refine ⟨((hmem e).mp (mem_append_left _ he)).2.2.1, ?_⟩
    cases hl : seen.getLast? with
    | none => exact absurd (getLast?_eq_none_iff.mp hl ▸ he) not_mem_nil
    | some last =>
      rw [lastPosition, hl]
      exact (hasc.sublist (sublist_append_left _ _)).le_getLast he hl
  have hasked : ∀ e ∈ history, q.Asks e → start < e.position → e ∈ seen ++ rest :=
    fun e he ha hs => (hmem e).mpr ⟨he, containsClass_of_group ha.1, hs, ha.2.1⟩
  have hexamined : page.lastExamined = seen.getLast? := hlast.trans (by simp)
  refine ⟨lastPosition seen start, ?_, hrecords.trans ?_, ?_, ?_, ?_⟩
  · cases hl : seen.getLast? with
    | none => rw [lastPosition, hl]; exact le_rfl
    | some last =>
      have := hseen last (mem_of_getLast? hl)
      exact this.1.le.trans this.2
  · -- both sides are ascending, so it is enough to compare their members
    rw [between]
    refine congrArg (List.map _) (Ascending.eq_of_mem_iff
      ((hasc.sublist (sublist_append_left _ _)).filter _) (h.ascending.filter _) fun e => ?_)
    rw [mem_filter, mem_filter, decide_eq_true_iff]
    constructor
    · rintro ⟨he, hg⟩
      obtain ⟨hh, -, -, hsince⟩ := (hmem e).mp (mem_append_left _ he)
      exact ⟨hh, ⟨hg, hsince, huntil e he⟩, hseen e he⟩
    · rintro ⟨he, ha, hs, hle⟩
      refine ⟨(mem_append.mp (hasked e he ha hs)).resolve_right fun hr => ?_, ha.1⟩
      cases hl : seen.getLast? with
      | none =>
        rw [lastPosition, hl] at hle
        exact absurd hs (not_lt.mpr hle)
      | some last =>
        rw [lastPosition, hl] at hle
        exact absurd ((pairwise_append.mp hasc).2.2 last (mem_of_getLast? hl) e hr)
          (not_lt.mpr hle)
  · intro hnone
    rw [lastPosition, ← hexamined, hnone]
    rfl
  · intro e he
    have hl : seen.getLast? = some e := hexamined.symm.trans he
    obtain ⟨hh, -, hs, -⟩ := (hmem e).mp (mem_append_left _ (mem_of_getLast? hl))
    refine ⟨hh, hs, ?_⟩
    rw [lastPosition, hl]
    rfl
  · intro hmore e he ha hs
    refine (hseen e ((mem_append.mp (hasked e he ha hs)).resolve_right fun hr => ?_)).2
    -- the records left over all lie above the upper time bound
    cases rest with
    | nil => cases hr
    | cons first rest =>
      obtain hm | hlate := hstop
      · exact absurd (hmore.symm.trans hm) Bool.false_ne_true
      obtain ⟨t, ht, hlt⟩ := hlate first rfl
      have hfirst : first.timestamp ≤ e.timestamp := by
        obtain rfl | hr := mem_cons.mp hr
        · exact le_rfl
        · exact (pairwise_cons.mp (pairwise_append.mp hchron).2.1).1 e hr
      exact absurd (ha.2.2 t ht) (not_le.mpr (hlt.trans_le hfirst))

end FeedQuery

end Iggy
