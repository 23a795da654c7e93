import Iggy.Lib.Except
import Iggy.Metadata.FeedPages

/-!
# The change feed never skips silently

A reader fixes a selection of groups, time bounds and a page limit, and follows each page's `next`
cursor while the log appends and evicts. `Follows` is the invariant of a reader past its first page:
it received exactly the part of the history it asks for between its start and its cursor, and a
record it asks for behind the cursor lies behind the start too, unless the log evicted it, in which
case the cursor is expired.
-/

namespace Iggy

open List Lib FeedQuery MetadataChangeRecord

/-- The log with all it ever appended, and a reader: where its next page starts, the position behind
which it reads, and what it received. -/
structure FeedRun where
  log : ChangeLog
  history : List ChangeEntry := []
  /-- operation and timestamp of the newest append -/
  op : Nat := 0
  timestamp : Nat := 0
  start : MetadataChangeStart
  startedAt : Option Position := none
  received : List MetadataChangeRecord := []

inductive FeedEvent
  | append (header : PrepareHeader) (changes : List AppliedChange)
  | restored (resource activity : Nat)
  | page (headOp : Nat)

namespace FeedRun

/-- The position behind which a reader reads: for the oldest start the whole floor operation. -/
def startPosition (q : FeedQuery) (log : ChangeLog) (next : MetadataChangeCursor) :
    MetadataChangeStart → Position
  | .earliest => toLex ((ofLex (q.view log 0).floor).1, maxOrdinal)
  | .after c => c.position
  | .latest | .current => next.position

/-- An append of a later operation at no earlier time, a restore under other capacities, or a page
that is answered `Ok` from a log image holding every record up to `headOp`. -/
def step (q : FeedQuery) (s : FeedRun) : FeedEvent → Option FeedRun
  | .append header changes =>
    if s.op < header.op ∧ s.timestamp ≤ header.timestamp then
      match s.log.append header changes with
      | .ok log =>
        some { s with
          log
          history := s.history ++ ChangeLog.stamp header changes
          op := header.op
          timestamp := header.timestamp }
      | .error _ => none
    else none
  | .restored resource activity => some { s with log := s.log.restored resource activity }
  | .page headOp =>
    if s.log.lastRecordOp ≤ headOp then
      match changePage s.log headOp (q.query s.start) q.groups with
      | .ok { status := .ok, next := some next, records, .. } =>
        some { s with
          start := .after next
          startedAt := some (s.startedAt.getD (startPosition q s.log next s.start))
          received := s.received ++ records }
      | _ => none
    else none

def run (q : FeedQuery) (s : FeedRun) (events : List FeedEvent) : Option FeedRun :=
  events.foldlM (step q) s

def new (resource activity : Nat) (start : MetadataChangeStart) : FeedRun where
  log := .new resource activity
  start := start

/-! ## One page -/

variable {log : ChangeLog} {headOp : Nat} {r : GetMetadataChangesResponse}

theorem changePage_ok {q : FeedQuery} {reader : MetadataChangeStart}
    (h : changePage log headOp (q.query reader) q.groups = .ok r)
    (hok : r.status = .ok ∨ r.hasMore = true) :
    let v := q.view log headOp
    ∃ logId, log.logId = some logId ∧
      ((reader = .latest ∧ r = v.answer .ok (some (v.latestCursor logId))) ∨
        (reader = .earliest ∧ r = scannedPage v logId (q.query reader)
          (toLex ((ofLex v.floor).1, maxOrdinal)) (v.latestCursor logId)) ∨
        ∃ c start, reader = .after c ∧ v.check c = .valid start ∧
          r = scannedPage v logId (q.query reader) start c) := by
  intro v
  unfold changePage at h
  dsimp only at h
  split at h
  · cases h
  split at h
  · cases h
    simp [LogView.answer] at hok
  rename_i logId hid
  refine ⟨logId, hid, ?_⟩
  split at h
  case h_1 hstart => exact .inl ⟨hstart, (Except.ok.inj h).symm⟩
  case h_2 hstart => exact .inr (.inl ⟨hstart, (Except.ok.inj h).symm⟩)
  case h_3 c hstart =>
    split at h
    case h_1 start hcheck => exact .inr (.inr ⟨c, start, hstart, hcheck, (Except.ok.inj h).symm⟩)
    all_goals
      cases h
      simp [LogView.answer] at hok
  case h_4 => cases h

variable {start : Position} {e : ChangeEntry}

theorem next_of_lastExamined {v : LogView} {logId : Nat} {query : MetadataChangesQuery}
    {supplied : MetadataChangeCursor}
    (h : (v.scan start query.since query.until query.limit).lastExamined = some e) :
    (scannedPage v logId query start supplied).next = some (e.cursor logId) := by
  simp only [scannedPage, h]

variable {q : FeedQuery} {c : MetadataChangeCursor}

theorem changePage_expired (hid : log.logId = some c.logId)
    (hcheck : (q.view log headOp).check c = .expired) :
    changePage log headOp (q.query (.after c)) q.groups =
      .ok ((q.view log headOp).answer .expired none) := by
  unfold changePage
  have hcheck : LogView.check ⟨log, q.groups, headOp⟩ c = .expired := hcheck
  simp only [query, hid, hcheck]
  rfl

/-- A reader past its first page: it reads behind `st` and follows `c`. -/
structure Follows (q : FeedQuery) (s : FeedRun) (st : Position) (c : MetadataChangeCursor) :
    Prop where
  start : s.start = .after c
  logId : s.log.logId = some c.logId
  names : Names s.history c
  startOp : (ofLex st).1 ≤ s.log.lastRecordOp
  received : s.received = q.between s.history st c.position
  gap : ∀ e ∈ s.history, q.Asks e → c.position < e.position → st < e.position ∨ ¬ s.log.Keeps e

structure Wrote (s : FeedRun) : Prop where
  retains : Retains s.log s.history
  op : s.log.lastRecordOp ≤ s.op
  timestamp : ∀ e ∈ s.history, e.timestamp ≤ s.timestamp
  named : s.log.logId ≠ none → 0 < s.op

variable {s : FeedRun}

theorem Wrote.reader (h : Wrote s) (start : MetadataChangeStart) (startedAt : Option Position)
    (received : List MetadataChangeRecord) :
    Wrote { s with start, startedAt, received } :=
  ⟨h.retains, h.op, h.timestamp, h.named⟩

variable {history : List ChangeEntry}

theorem names_op_le (h : Retains log history) (hn : Names history c) : c.op ≤ log.lastRecordOp := by
  obtain hz | ⟨e, he, hc⟩ := hn
  · omega
  · rw [hc]
    exact (h.bounded e he).2.1

theorem mem_between {upto : Position} (he : e ∈ history) (ha : q.Asks e) (hlt : start < e.position)
    (hle : e.position ≤ upto) : ofEntry e ∈ q.between history start upto :=
  mem_map_of_mem (mem_filter.mpr ⟨he, decide_eq_true ⟨ha, hlt, hle⟩⟩)

theorem between_eq_nil {upto : Position}
    (h : ∀ e ∈ history, q.Asks e → start < e.position → upto < e.position) :
    q.between history start upto = [] := by
  rw [between, map_eq_nil_iff, filter_eq_nil_iff]
  intro e he
  rw [decide_eq_true_iff]
  exact fun hb => absurd hb.2.2 (not_le.mpr (h e he hb.1 hb.2.1))

theorem between_self (q : FeedQuery) (history : List ChangeEntry) (p : Position) :
    q.between history p p = [] := between_eq_nil fun _ _ _ h => h

/-- If nothing asked for behind `b` lies before the start. -/
theorem between_append (h : Ascending ChangeEntry.position history) {a b c : Position} (hbc : b ≤ c)
    (hgap : ∀ e ∈ history, q.Asks e → b < e.position → a < e.position) :
    q.between history a b ++ q.between history b c = q.between history a c := by
  rw [between, between, between, ← map_append]
  refine congrArg (List.map _) (Ascending.eq_of_mem_iff
    ((h.filter _).append (h.filter _) fun x hx y hy => ?_) (h.filter _) fun e => ?_)
  · simp only [mem_filter, decide_eq_true_eq] at hx hy
    exact hx.2.2.2.trans_lt hy.2.2.1
  · simp only [mem_append, mem_filter, decide_eq_true_eq]
    constructor
    · rintro (⟨he, ha, hlt, hle⟩ | ⟨he, ha, hlt, hle⟩)
      · exact ⟨he, ha, hlt, hle.trans hbc⟩
      · exact ⟨he, ha, hgap e he ha hlt, hle⟩
    · rintro ⟨he, ha, hlt, hle⟩
      obtain hb | hb := le_or_gt e.position b
      · exact .inl ⟨he, ha, hlt, hb⟩
      · exact .inr ⟨he, ha, hb, hle⟩

/-- A reader that has just taken a cursor of this log as its start. -/
theorem Follows.fresh (hw : Wrote s) (hstart : s.start = .after c)
    (hid : s.log.logId = some c.logId) (hn : Names s.history c) (hrec : s.received = []) :
    Follows q s c.position c where
  start := hstart
  logId := hid
  names := hn
  startOp := names_op_le hw.retains hn
  received := by rw [hrec, between_self]
  gap := fun _ _ _ h => .inl h

/-- The cursor behind a scanned page. -/
def nextCursor (page : LogView.ScannedPage) (logId : Nat) (supplied : MetadataChangeCursor) :
    MetadataChangeCursor :=
  match page.lastExamined with
  | some entry => entry.cursor logId
  | none => supplied

theorem keeps_of_valid (hw : Wrote s) (hcheck : (q.view s.log headOp).check c = .valid start)
    (he : e ∈ s.history) (ha : q.Asks e) (hlt : c.position < e.position) : s.log.Keeps e := by
  obtain ⟨-, -, hfloor, hstart⟩ := check_valid (v := q.view s.log headOp) hw.retains hcheck
  by_contra hgone
  have hle : e.position ≤ (q.view s.log headOp).floor :=
    Retains.le_floor (v := q.view s.log headOp) hw.retains he (containsClass_of_group ha.1) hgone
  exact absurd ((hstart e he).mpr hlt) (not_lt.mpr (hle.trans hfloor))

/-- Without `has_more` the reader is caught up. -/
theorem Follows.page {st : Position} (hw : Wrote s) (h : Follows q s st c)
    (hcheck : (q.view s.log headOp).check c = .valid start) (started : Option Position) :
    let page := (q.view s.log headOp).scan start q.since q.until q.limit
    let next := nextCursor page c.logId c
    Follows q { s with start := .after next, startedAt := started,
                       received := s.received ++ page.records } st next ∧
      (∀ e, page.lastExamined = some e → e ∈ s.history ∧ c.position < e.position) ∧
      (page.hasMore = false → ∀ e ∈ s.history, q.Asks e → st < e.position →
        e.position ≤ next.position) := by
  intro page next
  obtain ⟨-, -, hfloor, hstart⟩ := check_valid (v := q.view s.log headOp) hw.retains hcheck
  obtain ⟨upto, -, hrecords, hnone, hsome, hmore⟩ :=
    @scan_spec q s.log headOp s.history hw.retains start hfloor
  have hgap : ∀ e ∈ s.history, q.Asks e → c.position < e.position → st < e.position :=
    fun e he ha hlt =>
      (h.gap e he ha hlt).resolve_right (not_not.mpr (keeps_of_valid hw hcheck he ha hlt))
  cases hlast : page.lastExamined with
  | none =>
    -- nothing was examined: the page is empty and the cursor stays
    have hnext : next = c := by simp only [next, nextCursor, hlast]
    have hempty : page.records = [] := by
      rw [hrecords, hnone hlast, between_self]
    rw [hnext, hempty, append_nil]
    refine ⟨⟨rfl, h.logId, h.names, h.startOp, h.received, h.gap⟩, by simp,
      fun hm e he ha _ => not_lt.mp fun hlt => ?_⟩
    have hlt' := (hstart e he).mpr hlt
    exact absurd (hnone hlast ▸ hmore hm e he ha hlt') (not_le.mpr hlt')
  | some last =>
    have hnext : next = last.cursor c.logId := by simp only [next, nextCursor, hlast]
    obtain ⟨hmem, hlt, hupto⟩ := hsome last hlast
    have hclt : c.position < last.position := (hstart last hmem).mp hlt
    have hbetween : page.records = q.between s.history c.position last.position := by
      rw [hrecords, hupto, between, between]
      refine congrArg (List.map _) (filter_congr fun e he => ?_)
      simp only [hstart e he]
    rw [hnext]
    refine ⟨⟨rfl, h.logId, .inr ⟨last, hmem, rfl⟩, h.startOp, ?_, fun e he ha hl =>
      h.gap e he ha (hclt.trans hl)⟩, ?_, fun hm e he ha _ => ?_⟩
    · change s.received ++ page.records = _
      rw [h.received, hbetween]
      exact between_append hw.retains.ascending hclt.le hgap
    · rintro e he
      cases he
      exact ⟨hmem, hclt⟩
    · obtain hle | hgt := le_or_gt e.position c.position
      · exact hle.trans hclt.le
      · exact (hmore hm e he ha ((hstart e he).mpr hgt)).trans_eq hupto

theorem Follows.earliest (hlimit : 0 < q.limit) (hw : Wrote s) (hrec : s.received = [])
    {headOp logId : Nat} (hid : s.log.logId = some logId) (started : Option Position) :
    let v := q.view s.log headOp
    let st : Position := toLex ((ofLex v.floor).1, maxOrdinal)
    let page := v.scan st q.since q.until q.limit
    let next := nextCursor page logId (v.latestCursor logId)
    Follows q { s with start := .after next, startedAt := started,
                       received := s.received ++ page.records } st next ∧
      (∀ e, page.lastExamined = some e → e ∈ s.history) := by
  intro v st page next
  have hfloor : v.floor ≤ st ∧ (ofLex st).1 ≤ s.log.lastRecordOp := by
    obtain hz | ⟨e, he, hpos⟩ := Retains.floor_cases (v := v) hw.retains
    · exact ⟨le_of_eq_of_le hz (Prod.Lex.toLex_le_toLex.mpr (.inr ⟨by rw [hz]; rfl, Nat.zero_le _⟩)),
        by change (ofLex v.floor).1 ≤ _; rw [hz]; exact Nat.zero_le _⟩
    · obtain ⟨-, hop, hord⟩ := hw.retains.bounded e he
      exact ⟨le_of_eq_of_le hpos (Prod.Lex.toLex_le_toLex.mpr (.inr ⟨by rw [hpos]; rfl, hord⟩)),
        by change (ofLex v.floor).1 ≤ _; rw [hpos]; exact hop⟩
  obtain ⟨upto, -, hrecords, hnone, hsome, hmore⟩ :=
    @scan_spec q s.log headOp s.history hw.retains st hfloor.1
  cases hlast : page.lastExamined with
  | none =>
    -- nothing to examine behind the floor operation: the reader moves on to the newest record
    have hnext : next = v.latestCursor logId := by simp only [next, nextCursor, hlast]
    have hm : page.hasMore = false := by
      by_contra hm
      obtain ⟨e, he⟩ := scan_hasMore hlimit (Bool.not_eq_false _ ▸ hm)
      exact absurd (hlast.symm.trans he) nofun
    have hbehind : ∀ e ∈ s.history, q.Asks e → ¬ st < e.position := fun e he ha hlt =>
      absurd (hnone hlast ▸ hmore hm e he ha hlt) (not_le.mpr hlt)
    have hempty : page.records = [] := by
      rw [hrecords, hnone hlast, between_self]
    obtain ⟨hcid, hnames, hnewest⟩ := latestCursor_spec (v := v) hw.retains logId
    rw [hnext, hempty, hrec, append_nil]
    refine ⟨⟨rfl, hid.trans (congrArg some hcid.symm), hnames, hfloor.2, ?_, fun e he ha hlt => .inr fun hkeep => ?_⟩,
      by simp⟩
    · exact (between_eq_nil fun e he ha hlt => absurd hlt (hbehind e he ha)).symm
    · exact absurd hlt (not_lt.mpr (hnewest e he (containsClass_of_group ha.1) hkeep))
  | some last =>
    have hnext : next = last.cursor logId := by simp only [next, nextCursor, hlast]
    obtain ⟨hmem, hlt, hupto⟩ := hsome last hlast
    rw [hnext, hrec, nil_append]
    refine ⟨⟨rfl, hid, .inr ⟨last, hmem, rfl⟩, hfloor.2,
      hrecords.trans (congrArg _ hupto), fun e _ _ hl =>
      .inl (hlt.trans hl)⟩, ?_⟩
    rintro e he
    cases he
    exact hmem

/-! ## The run -/

/-- The reader has received nothing yet or follows a cursor. -/
structure Reads (q : FeedQuery) (s : FeedRun) : Prop where
  wrote : Wrote s
  fresh : s.startedAt = none → s.received = []
  follows : ∀ st, s.startedAt = some st → ∃ c, Follows q s st c

theorem Reads.new (q : FeedQuery) (resource activity : Nat) (start : MetadataChangeStart) :
    Reads q (.new resource activity start) where
  wrote := ⟨.new resource activity, le_rfl, nofun,
    fun h => absurd rfl h⟩
  fresh := fun _ => rfl
  follows := fun _ h => nomatch h

/-- The new records lie behind the cursor. -/
theorem Reads.append (h : Reads q s) {header : PrepareHeader} {changes : List AppliedChange}
    (hop : s.op < header.op) (hts : s.timestamp ≤ header.timestamp)
    (happ : s.log.append header changes = .ok log) :
    Reads q { s with
      log
      history := s.history ++ ChangeLog.stamp header changes
      op := header.op
      timestamp := header.timestamp } := by
  have hw := h.wrote
  have hlt : s.log.lastRecordOp < header.op := hw.op.trans_lt hop
  obtain ⟨hid, -, hlast⟩ := append_cases happ
  have hlast' : s.log.lastRecordOp ≤ log.lastRecordOp ∧ log.lastRecordOp ≤ header.op := by omega
  refine ⟨⟨hw.retains.append hlt (fun e he => (hw.timestamp e he).trans hts) happ, hlast'.2, ?_,
    fun _ => Nat.zero_lt_of_lt hop⟩, h.fresh, fun st hst => ?_⟩
  · exact forall_mem_append.mpr
      ⟨fun e he => (hw.timestamp e he).trans hts, fun e he => (mem_stamp he).2.2.le⟩
  obtain ⟨c, hf⟩ := h.follows st hst
  have hnew : ∀ e ∈ ChangeLog.stamp header changes, ∀ p : Position,
      (ofLex p).1 ≤ s.log.lastRecordOp → p < e.position := fun e he p hp =>
    Prod.Lex.toLex_lt_toLex.mpr (.inl (by rw [(mem_stamp he).1]; exact hp.trans_lt hlt))
  have hcop : (ofLex c.position).1 ≤ s.log.lastRecordOp := names_op_le hw.retains hf.names
  refine ⟨c, hf.start, ?_, ?_, hf.startOp.trans hlast'.1, ?_, fun e he ha hce => ?_⟩
  · -- the log was named before, so this is not operation 1
    have hpos := hw.named (by rw [hf.logId]; exact Option.some_ne_none _)
    rw [hid, if_neg (by omega)]
    exact hf.logId
  · exact hf.names.imp id fun ⟨e, he, hc⟩ => ⟨e, mem_append_left _ he, hc⟩
  · have hnone : q.between (ChangeLog.stamp header changes) st c.position = [] :=
      between_eq_nil fun e he _ _ => hnew e he _ hcop
    rw [between, filter_append, map_append]
    exact hf.received.trans ((congrArg (_ ++ ·) hnone).trans (append_nil _)).symm
  · obtain he | he := mem_append.mp he
    · refine (hf.gap e he ha hce).imp id fun hgone hkeep => hgone (keeps_of_append happ ?_ hkeep)
      intro hmem
      exact absurd (hw.retains.bounded e he).2.1 (by rw [(mem_stamp hmem).1]; omega)
    · exact .inl (hnew e he st hf.startOp)

theorem Reads.restored (h : Reads q s) (resource activity : Nat) :
    Reads q { s with log := s.log.restored resource activity } := by
  refine ⟨⟨h.wrote.retains.restored resource activity, h.wrote.op, h.wrote.timestamp,
    h.wrote.named⟩, h.fresh, fun st hst => ?_⟩
  obtain ⟨c, hf⟩ := h.follows st hst
  exact ⟨c, hf.start, hf.logId, hf.names, hf.startOp, hf.received, fun e he ha hce =>
    (hf.gap e he ha hce).imp id fun hgone hkeep => hgone (keeps_of_restored hkeep)⟩

/-- Whether it read a page before or starts here. -/
theorem Reads.follows_of_valid (h : Reads q s) (hstart : s.start = .after c)
    (hcheck : (q.view s.log headOp).check c = .valid start) :
    Follows q s (s.startedAt.getD c.position) c := by
  cases hst : s.startedAt with
  | none =>
    obtain ⟨hid, hnames, -⟩ := check_valid (v := q.view s.log headOp) h.wrote.retains hcheck
    exact .fresh h.wrote hstart hid hnames (h.fresh hst)
  | some st =>
    obtain ⟨c', hf⟩ := h.follows st hst
    obtain rfl : c' = c := MetadataChangeStart.after.inj (hf.start.symm.trans hstart)
    exact hf

theorem Reads.startedAt_eq_none (h : Reads q s) (hne : ∀ c, s.start ≠ .after c) :
    s.startedAt = none := by
  by_contra hst
  obtain ⟨st, hst⟩ := Option.ne_none_iff_exists'.mp hst
  obtain ⟨c, hf⟩ := h.follows st hst
  exact hne c hf.start

theorem Reads.page (hlimit : 0 < q.limit) (h : Reads q s) {next : MetadataChangeCursor}
    (hpage : changePage s.log headOp (q.query s.start) q.groups = .ok r) (hok : r.status = .ok)
    (hnext : r.next = some next) :
    Reads q { s with
      start := .after next
      startedAt := some (s.startedAt.getD (startPosition q s.log next s.start))
      received := s.received ++ r.records } := by
  have hw := h.wrote
  refine ⟨hw.reader _ _ _, fun hnone => (nomatch hnone), ?_⟩
  rintro st ⟨⟩
  refine ⟨next, ?_⟩
  obtain ⟨logId, hid, ⟨hstart, rfl⟩ | ⟨hstart, rfl⟩ | ⟨c, from_, hstart, hcheck, rfl⟩⟩ :=
    changePage_ok hpage (.inl hok)
  · have hst := h.startedAt_eq_none fun c hc => nomatch hstart.symm.trans hc
    obtain ⟨hcid, hnames, -⟩ := latestCursor_spec (v := q.view s.log headOp) hw.retains logId
    cases hnext
    rw [hst, hstart]
    refine Follows.fresh (hw.reader _ _ _) rfl (hid.trans (congrArg some hcid.symm)) hnames ?_
    exact (append_nil _).trans (h.fresh hst)
  · have hst := h.startedAt_eq_none fun c hc => nomatch hstart.symm.trans hc
    cases hnext
    rw [hst, hstart]
    exact (Follows.earliest hlimit hw (h.fresh hst) hid _).1
  · have hf := h.follows_of_valid hstart hcheck
    obtain rfl : logId = c.logId := Option.some.inj (hid.symm.trans hf.logId)
    cases hnext
    rw [hstart]
    exact (hf.page hw hcheck _).1

theorem Reads.step (hlimit : 0 < q.limit) {s' : FeedRun} (h : Reads q s) {event : FeedEvent}
    (hstep : FeedRun.step q s event = some s') : Reads q s' := by
  cases event with
  | append header changes =>
    rw [FeedRun.step] at hstep
    split_ifs at hstep with hle
    split at hstep <;> cases hstep
    exact h.append hle.1 hle.2 ‹_›
  | restored resource activity =>
    cases hstep
    exact h.restored resource activity
  | page headOp =>
    rw [FeedRun.step] at hstep
    split_ifs at hstep
    split at hstep <;> cases hstep
    exact h.page hlimit ‹_› rfl rfl

theorem Reads.run (hlimit : 0 < q.limit) {events : List FeedEvent} {s' : FeedRun} (h : Reads q s)
    (hrun : FeedRun.run q s events = some s') : Reads q s' :=
  foldlM_some_invariant _ (fun _ _ _ _ h hstep => h.step hlimit hstep) h hrun

/-- **The change feed never skips silently.** Along every run of appends with increasing operations
and times, evictions and `Ok` pages, a reader has received exactly the records it asks for between
its start and its cursor, each once and in order. A page without `has_more` leaves nothing it asks
for; if a record still owed was evicted, the next page is `Expired`; and a page with `has_more`
examined an entry and moves the cursor forward. -/
theorem feed_never_skips_silently (q : FeedQuery) (hlimit : 1 ≤ q.limit) (resource activity : Nat)
    (start : MetadataChangeStart) (events : List FeedEvent) (s : FeedRun)
    (hrun : FeedRun.run q (.new resource activity start) events = some s) :
    (∀ st, s.startedAt = some st → ∃ c, s.start = .after c ∧
      s.received = q.between s.history st c.position ∧
      s.received.Pairwise (fun a b => toLex (a.op, a.ordinal) < toLex (b.op, b.ordinal)) ∧
      ∀ headOp, s.log.lastRecordOp ≤ headOp →
        (∀ r, changePage s.log headOp (q.query (.after c)) q.groups = .ok r → r.status = .ok →
          r.hasMore = false → ∀ e ∈ s.history, q.Asks e → st < e.position →
            ofEntry e ∈ s.received ++ r.records) ∧
        ((∃ e ∈ s.history, q.Asks e ∧ st < e.position ∧
            ofEntry e ∉ s.received ∧ ¬ s.log.Keeps e) →
          ∃ r, changePage s.log headOp (q.query (.after c)) q.groups = .ok r ∧
            r.status = .expired)) ∧
    ∀ headOp r, changePage s.log headOp (q.query s.start) q.groups = .ok r → r.hasMore = true →
      ∃ from_ e, ((q.view s.log headOp).scan from_ q.since q.until q.limit).lastExamined = some e ∧
        e ∈ s.history ∧ (∃ logId, s.log.logId = some logId ∧ r.next = some (e.cursor logId)) ∧
        ∀ c, s.start = .after c → c.position < e.position := by
  have h : Reads q s := (Reads.new q resource activity start).run hlimit hrun
  have hw := h.wrote
  refine ⟨fun st hst => ?_, fun headOp r hpage hmore => ?_⟩
  · obtain ⟨c, hf⟩ := h.follows st hst
    refine ⟨c, hf.start, hf.received, ?_, fun headOp hhead => ⟨fun r hpage hok hmore e he ha hse => ?_,
      ?_⟩⟩
    · rw [hf.received]
      exact pairwise_map.mpr (hw.retains.ascending.filter _)
    · obtain ⟨logId, hid, ⟨hs, -⟩ | ⟨hs, -⟩ | ⟨c', from_, hs, hcheck, rfl⟩⟩ :=
        changePage_ok hpage (.inl hok)
      · cases hs
      · cases hs
      cases hs
      obtain ⟨hf', -, hdone⟩ := hf.page hw hcheck none
      have hreceived := hf'.received
      dsimp only at hreceived
      exact hreceived ▸ mem_between he ha hse (hdone hmore e he ha hse)
    · rintro ⟨e, he, ha, hse, hnot, hgone⟩
      have hbehind : c.position < e.position := not_le.mp fun hle =>
        hnot (hf.received ▸ mem_between he ha hse hle)
      have hfloor := Retains.le_floor (v := q.view s.log headOp) hw.retains he
        (containsClass_of_group ha.1) hgone
      have hcheck := check_expired (v := q.view s.log headOp) hw.retains hf.logId hf.names hhead he
        hbehind hfloor
      exact ⟨_, changePage_expired hf.logId hcheck, rfl⟩
  · obtain ⟨logId, hid, ⟨hs, rfl⟩ | ⟨hs, rfl⟩ | ⟨c, from_, hs, hcheck, rfl⟩⟩ :=
      changePage_ok hpage (.inr hmore)
    · cases hmore
    · have hst := h.startedAt_eq_none fun c hc => nomatch hs.symm.trans hc
      obtain ⟨e, he⟩ := scan_hasMore hlimit hmore
      have hmem := (Follows.earliest hlimit hw (h.fresh hst) hid none).2 e he
      exact ⟨_, e, he, hmem, ⟨logId, hid, next_of_lastExamined he⟩,
        fun c hc => nomatch hs.symm.trans hc⟩
    · obtain ⟨e, he⟩ := scan_hasMore hlimit hmore
      obtain ⟨hmem, hlt⟩ := ((h.follows_of_valid hs hcheck).page hw hcheck none).2.1 e he
      refine ⟨from_, e, he, hmem, ⟨logId, hid, next_of_lastExamined he⟩, fun c' hc => ?_⟩
      obtain rfl : c = c' := MetadataChangeStart.after.inj (hs.symm.trans hc)
      exact hlt

def feedHeader (op : Nat) : PrepareHeader := { op, checksum := 7 + op, timestamp := op }

/-- A reader of stream records, one a page. -/
def streamsQuery : FeedQuery := ⟨fun g => g = .streams, none, none, 1⟩

/-- Two streams and a session, a page with the first stream, and a restore that evicts both. -/
def evictingRun : List FeedEvent :=
  [.append (feedHeader 1) [⟨.streamCreated, none, []⟩, ⟨.sessionRegistered, none, []⟩],
    .append (feedHeader 3) [⟨.streamCreated, some 0, []⟩], .page 3, .restored 0 1]

def evictedRun : FeedRun :=
  (FeedRun.run streamsQuery (.new 8 8 .earliest) evictingRun).get (by decide +kernel)

/-- The reader holds the first stream and learns that the second is gone. -/
theorem evicted_stream_expires :
    FeedRun.run streamsQuery (.new 8 8 .earliest) evictingRun = some evictedRun ∧
      evictedRun.received.map MetadataChangeRecord.op = [1] ∧ ∃ c, evictedRun.start = .after c ∧
      ∃ r, changePage evictedRun.log 3 (streamsQuery.query (.after c)) streamsQuery.groups = .ok r ∧
        r.status = .expired := by
  have hrun : FeedRun.run streamsQuery (.new 8 8 .earliest) evictingRun = some evictedRun :=
    (Option.some_get _).symm
  have hstarted : evictedRun.startedAt = some (toLex (0, maxOrdinal)) := by decide +kernel
  obtain ⟨c, hc, -, -, hpages⟩ := (feed_never_skips_silently streamsQuery (by decide) 8 8 .earliest
    evictingRun evictedRun hrun).1 _ hstarted
  refine ⟨hrun, by decide +kernel, c, hc, (hpages 3 (by decide +kernel)).2 ?_⟩
  decide +kernel

end FeedRun

end Iggy
