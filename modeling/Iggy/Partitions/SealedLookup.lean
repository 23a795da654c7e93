import Iggy.Partitions.PollPlan

/-!
# Lookups in the index of a sealed segment

Source: iggy_index.rs:97-120; iggy_index_reader.rs:194-259; poll_plan.rs:1107-1168.

An index is searched in memory where it is loaded and on file where it is too large for that. A
lookup on file leaves a cursor: the entry it found and the offset of the next one, between which
later offset polls are answered without the file. Both searches answer with the last entry at or
below the target (`lastAtOrBelow`), so a poll gets the same start whatever came before it.
-/

namespace Iggy.Poll

open Lib IggyIndexCache

/-! ## The two searches -/

variable (entries : List IggyIndex)

/-- `IggyIndexReader::lower_bound_by`, with the index of the successor. -/
def lowerBoundIndexBy (entries : List IggyIndex) (key : IggyIndex → Nat) (target : Nat) :
    (fuel low high : Nat) → Option IggyIndex → Option (IggyIndex × Nat)
  | 0, low, _, result => result.map (·, low)
  | fuel + 1, low, high, result =>
    if low < high then
      let middle := low + (high - low) / 2
      match entries[middle]? with
      | none => result.map (·, low)
      | some entry =>
        if key entry ≤ target then
          lowerBoundIndexBy entries key target fuel (middle + 1) high (some entry)
        else lowerBoundIndexBy entries key target fuel low middle result
    else result.map (·, low)

def offsetLowerBoundWithSuccessor (offset : Nat) : Option (IggyIndex × Option Nat) :=
  (lowerBoundIndexBy entries IggyIndex.offset offset (entries.length + 1) 0 entries.length none).map
    fun (entry, successor) => (entry, entries[successor]?.map IggyIndex.offset)

def timestampLowerBound (timestamp : Nat) : Option IggyIndex :=
  (lowerBoundIndexBy entries IggyIndex.timestamp timestamp (entries.length + 1) 0 entries.length
    none).map Prod.fst

variable {entries : List IggyIndex} {key : IggyIndex → Nat} {target : Nat}

section

variable (hsorted : entries.Pairwise fun a b => key a < key b)
include hsorted

theorem IggyIndexCache.lowerBound_eq :
    lowerBound entries key target = lastAtOrBelow entries key target := by
  have hspec := binarySearchByKey_spec hsorted target
  rw [lastAtOrBelow_eq hsorted, ← hspec]
  unfold lowerBound
  cases binarySearchByKey entries key target with
  | ok i => rfl
  | error i =>
    cases i with
    | zero => rfl
    | succ i => rfl

/-- The cut is between `low` and `high`, and `result` is the entry before `low`. -/
theorem lowerBoundIndexBy_eq (fuel : Nat) {low high : Nat} {result : Option IggyIndex}
    (hfuel : high - low < fuel) (hlow : low ≤ firstAbove entries key target)
    (hhigh : firstAbove entries key target ≤ high) (hend : high ≤ entries.length)
    (hresult : result = if low = 0 then none else entries[low - 1]?) :
    lowerBoundIndexBy entries key target fuel low high result =
      (lastAtOrBelow entries key target).map (·, firstAbove entries key target) := by
  induction fuel generalizing low high result with
  | zero => exact absurd hfuel (Nat.not_lt_zero _)
  | succ fuel ih =>
    rw [lowerBoundIndexBy]
    split
    case isTrue hlt =>
      have hmiddle : low + (high - low) / 2 < entries.length := by omega
      have hget := List.getElem?_eq_getElem hmiddle
      have hiff := lt_firstAbove_iff hsorted target hget
      simp only [hget]
      split
      case isTrue hbelow =>
        have hin := hiff.mpr hbelow
        refine ih (by omega) (by omega) hhigh hend ?_
        rw [if_neg (Nat.succ_ne_zero _), Nat.add_sub_cancel, hget]
      case isFalse habove =>
        have hout := hiff.not.mpr habove
        exact ih (by omega) hlow (by omega) (by omega) hresult
    case isFalse hdone =>
      have heq : firstAbove entries key target = low := by omega
      rw [lastAtOrBelow_eq hsorted, heq, hresult]

theorem lowerBoundIndexBy_start :
    lowerBoundIndexBy entries key target (entries.length + 1) 0 entries.length none =
      (lastAtOrBelow entries key target).map (·, firstAbove entries key target) :=
  lowerBoundIndexBy_eq hsorted _ (by omega) (Nat.zero_le _) firstAbove_le_length le_rfl rfl

end

/-- The search that a poll's model uses is the loop without the successor. -/
theorem lowerBoundBy_eq_map (fuel low high : Nat) (result : Option IggyIndex) :
    lowerBoundBy entries key target fuel low high result =
      (lowerBoundIndexBy entries key target fuel low high result).map Prod.fst := by
  induction fuel generalizing low high result with
  | zero => cases result <;> rfl
  | succ fuel ih =>
    rw [lowerBoundBy, lowerBoundIndexBy]
    dsimp only
    split
    · cases entries[low + (high - low) / 2]? with
      | none => cases result <;> rfl
      | some entry =>
        dsimp only
        split
        · exact ih ..
        · exact ih ..
    · cases result <;> rfl

/-! ## The cursor -/

/-- Where a poll for `query` starts, by the last entry at or below it. -/
def exactStart (entries : List IggyIndex) : MessageLookup → Option (Nat × Nat)
  | .offset start _ _ =>
    (lastAtOrBelow entries IggyIndex.offset start).map fun entry => (entry.position, entry.offset)
  | .timestamp since _ _ =>
    (lastAtOrBelow entries IggyIndex.timestamp since).map fun entry => (entry.position, entry.offset)

/-- What `resolve_sealed_start` leaves in the segment's read state: the loaded index, or the cursor
of a lookup on file. -/
def cacheSealedStart (faults : DiskFaults) (segment : DiskSegment) (query : MessageLookup)
    (maxBytes : Nat) : DiskSegment :=
  if ¬ segment.sealed then segment
  else match segment.index, cursorHit segment query with
    | none, none =>
      let indexBytes := saturate (segment.indexFile.length * iggyIndexSize)
      if faults.indexFails segment.startOffset then segment
      else if indexBytes ≤ sealedIndexResidentMaxBytes ∧ saturate (indexBytes * 2) ≤ maxBytes then
        { segment with index := some segment.indexFile }
      else match query with
        | .timestamp _ _ _ => segment
        | .offset start _ _ => match offsetLowerBoundWithSuccessor segment.indexFile start with
          | none => segment
          | some (entry, successor) =>
            { segment with
              offsetCursor := some ⟨entry.offset, successor.getD wordMax, entry.position⟩ }
    | _, _ => segment

structure SealedPoll where
  faults : DiskFaults
  query : MessageLookup
  maxBytes : Nat

def afterPolls (segment : DiskSegment) (polls : List SealedPoll) : DiskSegment :=
  polls.foldl (fun segment poll => cacheSealedStart poll.faults segment poll.query poll.maxBytes)
    segment

structure Cached (entries : List IggyIndex) (start : Nat) (segment : DiskSegment) : Prop where
  start : segment.startOffset = start
  isSealed : segment.sealed = true
  file : segment.indexFile = entries
  index : ∀ index, segment.index = some index → index = entries
  cursor : ∀ query cursor, cursorHit segment query = some cursor →
    exactStart entries query = some (cursor.position, cursor.offset)

theorem resolveIndexPosition_eq (hoffset : entries.Pairwise fun a b => a.offset < b.offset)
    (htimestamp : entries.Pairwise fun a b => a.timestamp < b.timestamp) (query : MessageLookup) :
    resolveIndexPosition entries query = exactStart entries query := by
  cases query <;>
    simp only [resolveIndexPosition, indexLowerBound, lowerBound_eq hoffset,
      lowerBound_eq htimestamp, exactStart]

theorem lastAtOrBelow_of_successor (hsorted : entries.Pairwise fun a b => key a < key b)
    {entry : IggyIndex} (hfound : lastAtOrBelow entries key target = some entry) {start : Nat}
    (hle : key entry ≤ start)
    (hlt : ∀ next, entries[firstAbove entries key target]? = some next → start < key next) :
    lastAtOrBelow entries key start = some entry := by
  have hsame : firstAbove entries key start = firstAbove entries key target := by
    rw [lastAtOrBelow_eq hsorted] at hfound
    split_ifs at hfound
    have hin := (lt_firstAbove_iff hsorted start hfound).mpr hle
    have hend : firstAbove entries key start ≤ entries.length := firstAbove_le_length
    cases hnext : entries[firstAbove entries key target]? with
    | none =>
      have := List.getElem?_eq_none_iff.mp hnext
      omega
    | some next =>
      have hout := (lt_firstAbove_iff hsorted start hnext).not.mpr (not_le.mpr (hlt next hnext))
      omega
  rw [lastAtOrBelow_eq hsorted, hsame, ← lastAtOrBelow_eq hsorted, hfound]

theorem exactStart_of_written (hsorted : entries.Pairwise fun a b => a.offset < b.offset)
    {start : Nat} {entry : IggyIndex} {successor : Option Nat}
    (hfound : offsetLowerBoundWithSuccessor entries start = some (entry, successor)) {at' : Nat}
    (hle : entry.offset ≤ at') (hlt : at' < successor.getD wordMax) :
    lastAtOrBelow entries IggyIndex.offset at' = some entry := by
  rw [offsetLowerBoundWithSuccessor, lowerBoundIndexBy_start hsorted, Option.map_map] at hfound
  obtain ⟨found, hlast, heq⟩ := Option.map_eq_some_iff.mp hfound
  cases heq
  refine lastAtOrBelow_of_successor hsorted hlast hle fun next hnext => ?_
  simpa [hnext] using hlt

namespace Cached

variable {first : Nat} {segment : DiskSegment} {query : MessageLookup}

theorem cacheSealedStart (hsorted : entries.Pairwise fun a b => a.offset < b.offset)
    (h : Cached entries first segment) (faults : DiskFaults) (query : MessageLookup) (maxBytes : Nat) :
    Cached entries first (cacheSealedStart faults segment query maxBytes) := by
  unfold Poll.cacheSealedStart
  rw [if_neg (not_not.mpr h.isSealed)]
  split
  · dsimp only
    split_ifs
    · exact h
    · exact ⟨h.start, h.isSealed, h.file, fun index hindex => (Option.some.inj hindex).symm.trans h.file,
        h.cursor⟩
    · split
      · exact h
      · split
        · exact h
        · rename_i entry successor hfound
          rw [h.file] at hfound
          refine ⟨h.start, h.isSealed, h.file, h.index, fun query' cursor hhit => ?_⟩
          cases query' with
          | timestamp since count ceiling => cases hhit
          | offset start count ceiling =>
            rw [cursorHit] at hhit
            obtain ⟨hcursor, hin⟩ := Option.filter_eq_some_iff.mp hhit
            cases hcursor
            obtain ⟨hle, hlt⟩ := of_decide_eq_true hin
            simp [exactStart, exactStart_of_written hsorted hfound hle hlt]
  · exact h

theorem afterPolls (hsorted : entries.Pairwise fun a b => a.offset < b.offset)
    (polls : List SealedPoll) : ∀ {segment : DiskSegment}, Cached entries first segment →
      Cached entries first (afterPolls segment polls) := by
  induction polls with
  | nil => exact id
  | cons poll polls ih => exact fun h => ih (h.cacheSealedStart hsorted ..)

theorem of_fresh (hsealed : segment.sealed = true) (hfile : segment.indexFile = entries)
    (hindex : segment.index = none) (hcursor : segment.offsetCursor = none) :
    Cached entries segment.startOffset segment := by
  refine ⟨rfl, hsealed, hfile, fun index h => ?_, fun query cursor hhit => ?_⟩
  · rw [hindex] at h
    cases h
  · cases query with
    | timestamp since count ceiling => cases hhit
    | offset start count ceiling => simp [cursorHit, hcursor] at hhit

theorem resolveSealedStart (hoffset : entries.Pairwise fun a b => a.offset < b.offset)
    (htimestamp : entries.Pairwise fun a b => a.timestamp < b.timestamp)
    (h : Cached entries first segment) {faults : DiskFaults}
    (hread : faults.indexFails first = false) (maxBytes : Nat) :
    resolveSealedStart faults segment query maxBytes = exactStart entries query := by
  unfold Poll.resolveSealedStart
  rw [if_neg (not_not.mpr h.isSealed)]
  cases hindex : segment.index with
  | some index =>
    obtain rfl := h.index index hindex
    exact resolveIndexPosition_eq hoffset htimestamp query
  | none =>
    cases hhit : cursorHit segment query with
    | some cursor => exact (h.cursor query cursor hhit).symm
    | none =>
      simp only [h.start, hread, Bool.false_eq_true, if_false, h.file]
      split
      · exact resolveIndexPosition_eq hoffset htimestamp query
      · cases query with
        | offset start count ceiling =>
          simp [lowerBoundOnFile, lowerBoundBy_eq_map, lowerBoundIndexBy_start hoffset, exactStart,
            Function.comp_def]
        | timestamp since count ceiling =>
          simp [lowerBoundOnFile, lowerBoundBy_eq_map, lowerBoundIndexBy_start htimestamp, exactStart,
            Function.comp_def]

end Cached

/-- **Lookups in a sealed segment agree.** The search on file and the search in memory find the last
entry at or below the target or nothing, and whatever was polled before, an offset in the memoised
interval and a poll that reads the index start where a first lookup does. -/
theorem sealed_lookups_agree (entries : List IggyIndex)
    (hoffset : entries.Pairwise fun a b => a.offset < b.offset)
    (htimestamp : entries.Pairwise fun a b => a.timestamp < b.timestamp) :
    (∀ offset,
      (offsetLowerBoundWithSuccessor entries offset).map Prod.fst =
          lastAtOrBelow entries IggyIndex.offset offset ∧
        lowerBound entries IggyIndex.offset offset =
          lastAtOrBelow entries IggyIndex.offset offset) ∧
    (∀ timestamp,
      timestampLowerBound entries timestamp =
          lastAtOrBelow entries IggyIndex.timestamp timestamp ∧
        lowerBound entries IggyIndex.timestamp timestamp =
          lastAtOrBelow entries IggyIndex.timestamp timestamp) ∧
    ∀ segment : DiskSegment, segment.sealed = true → segment.indexFile = entries →
      segment.index = none → segment.offsetCursor = none → ∀ polls query,
      (∀ cursor, cursorHit (afterPolls segment polls) query = some cursor →
        some (cursor.position, cursor.offset) = exactStart entries query) ∧
      ∀ faults maxBytes, faults.indexFails segment.startOffset = false →
        resolveSealedStart faults (afterPolls segment polls) query maxBytes =
          resolveSealedStart faults segment query maxBytes := by
  refine ⟨fun offset => ⟨?_, lowerBound_eq hoffset⟩,
    fun timestamp => ⟨?_, lowerBound_eq htimestamp⟩,
    fun segment hsealed hfile hindex hcursor polls query => ?_⟩
  · simp [offsetLowerBoundWithSuccessor, lowerBoundIndexBy_start hoffset, Function.comp_def]
  · simp [timestampLowerBound, lowerBoundIndexBy_start htimestamp, Function.comp_def]
  · have hfresh := Cached.of_fresh hsealed hfile hindex hcursor
    have hafter := hfresh.afterPolls hoffset polls
    refine ⟨fun cursor hhit => (hafter.cursor query cursor hhit).symm, fun faults maxBytes hread => ?_⟩
    rw [hfresh.resolveSealedStart hoffset htimestamp hread,
      hafter.resolveSealedStart hoffset htimestamp hread]

/-- Two polls between the same two entries, the second from the cursor. -/
theorem sealed_lookups_agree_second_poll :
    let entries : List IggyIndex := [⟨10, 100, 0⟩, ⟨20, 200, 64⟩, ⟨30, 300, 128⟩]
    let faults : DiskFaults := ⟨fun _ => false, fun _ _ _ => false, fun _ => false⟩
    let segment : DiskSegment := ⟨10, 192, true, [], none, none, entries⟩
    let polls : List SealedPoll := [⟨faults, .offset 22 1 40, 0⟩]
    cursorHit (afterPolls segment polls) (.offset 27 1 40) = some ⟨20, 30, 64⟩ ∧
      some (64, 20) = exactStart entries (.offset 27 1 40) := by
  refine ⟨by decide, ?_⟩
  exact ((sealed_lookups_agree [⟨10, 100, 0⟩, ⟨20, 200, 64⟩, ⟨30, 300, 128⟩] (by decide)
    (by decide)).2.2 ⟨10, 192, true, [], none, none, _⟩ rfl rfl rfl rfl
      [⟨⟨fun _ => false, fun _ _ _ => false, fun _ => false⟩, .offset 22 1 40, 0⟩] _).1 ⟨20, 30, 64⟩
    (by decide)

end Iggy.Poll
