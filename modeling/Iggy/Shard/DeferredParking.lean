import Iggy.Partitions.LimitBytes
import Iggy.Partitions.PollServes
import Mathlib.Algebra.Order.BigOperators.Group.List
import Mathlib.Algebra.Order.Monoid.Prod

/-!
# Parking a deferred poll

Source: shard/src/poll/deferred.rs:175-243, 988-1051; iggy_partition.rs:4345-4357.

A poll that waits for messages reads the partition, and a read that does not finish it leaves a
bound on what it selected. A later commit only moves the bound by what it made visible, as long as a
read up to there could not finish either. A read goes over the batches that are visible with
`pushBatch`, as both tiers of a poll do, and retention may have taken the first of them. The byte
bound of the configuration is set once, at boot.
-/

namespace Iggy.DeferredPoll

open List Lib Batch Poll PolledPartition Fragment

structure PollVisibility where
  offset : Option Nat
  committedBytes : Nat
  deriving DecidableEq

/-- `DeferredPollOptions`, without its times. -/
structure DeferredPollOptions where
  minCount : UInt32
  maxBytes : UInt32
  deriving DecidableEq

structure Selection where
  messages : Nat := 0
  bytes : Nat := 0
  deriving DecidableEq

def replyByteLimit (options : DeferredPollOptions) (maxReadBytes : Nat) : Nat :=
  min options.maxBytes.toNat maxReadBytes - pollResponseHeaderSize

def Selection.finishesRead (s : Selection) (options : DeferredPollOptions) (maxReadBytes : Nat) :
    Bool :=
  options.minCount.toNat ≤ s.messages || replyByteLimit options maxReadBytes ≤ s.bytes

def u32Max : Nat := 2 ^ 32 - 1

/-- `Waiter`, as its admission leaves it: the options went through `validate`, and a `Next` poll has
become an `Offset` poll. -/
structure Waiter where
  args : PollingArgs
  options : DeferredPollOptions
  lastVisibility : Option PollVisibility := none
  running : Bool := false
  terminal : Bool := false
  selected : Selection := {}
  minCount_le : options.minCount.toNat ≤ args.count
  kind_ne_next : args.kind ≠ .next
  deriving DecidableEq

namespace Waiter

/-- The first offset that a read adds to a read that ended before `next`. -/
def addsFrom (w : Waiter) (next : Nat) : Nat :=
  if w.args.kind = .offset then max next w.args.value else next

def selectionAt (w : Waiter) (visibility : PollVisibility) : Option Selection :=
  w.lastVisibility.map fun last =>
    let start := w.addsFrom (last.offset.elim 0 fun offset => saturate (offset + 1))
    let messages := visibility.offset.elim 0 fun offset => saturate (offset + 1) - start
    { messages := min (w.selected.messages + messages) u32Max
      bytes := saturate (w.selected.bytes + (visibility.committedBytes - last.committedBytes)) }

/-- `parks_at`: the waiter afterwards, and the answer. -/
def parksAt (w : Waiter) (visibility : PollVisibility) (maxReadBytes : Nat) : Waiter × Bool :=
  let moved :=
    if ¬ w.running ∧ ¬ w.terminal ∧ w.lastVisibility ≠ some visibility then
      match w.selectionAt visibility with
      | none => w
      | some selected =>
        if selected.finishesRead w.options maxReadBytes then w
        else { w with lastVisibility := some visibility, selected }
    else w
  (moved, moved.running || (!moved.terminal && moved.lastVisibility == some visibility))

/-- `accept_deferred_result`: nothing is left of a waiter that is answered. -/
def acceptDeferredResult (xxh3 : Bytes → UInt64) (w : Waiter) (result : Poll.Selection)
    (truncated expired : Bool) (maxReadBytes : Nat) : Except LimitError (Option Waiter) := do
  let limited ← limitBytes xxh3 (result.fragments.map bytes) w.options.maxBytes.toNat
    maxReadBytes
  .ok (if w.options.minCount.toNat ≤ limited.messageCount ∨ limited.limited ∨ truncated ∨
      w.terminal ∨ expired then none
    else some { w with selected := ⟨limited.messageCount, limited.fragments.flatten.length⟩ })

end Waiter

def encodedBytes (result : Poll.Selection) : Nat :=
  (result.fragments.map bytes).flatten.length

/-! ## The partition that is polled -/

def nextOffset (p : PolledPartition) : Nat := if p.committedSeeded then p.commitOffset + 1 else 0

/-- A partition, the batches in its tiers that are visible, and those that are not committed yet. As
in `Holds`, the commit offset is not the last of all. -/
structure Partition (xxh3 : Bytes → UInt64) where
  polled : PolledPartition
  stored : List (List (StoredBatch xxh3))
  batches : List (StoredBatch xxh3)
  hidden : List (StoredBatch xxh3)
  committedBytes : Nat
  holds : polled.Holds stored (batches ++ hidden)
  below : ∀ m ∈ messagesOf batches, m.offset < nextOffset polled
  above : ∀ m ∈ messagesOf hidden, nextOffset polled ≤ m.offset

namespace Partition

variable {xxh3 : Bytes → UInt64} (p : Partition xxh3)

/-- `poll_visibility`. -/
def visibility : PollVisibility where
  offset := if p.polled.committedSeeded then some p.polled.commitOffset else none
  committedBytes := p.committedBytes

def query? (args : PollingArgs) : Option MessageLookup :=
  if ¬ p.polled.committedSeeded ∨ args.count = 0 then none else p.polled.lookup args

def read (args : PollingArgs) : Poll.Selection :=
  (p.query? args).elim {} fun query =>
    p.batches.foldl (fun acc b => pushBatch xxh3 query acc b.raw b.batch) {}

/-- Commits made the batches `added` visible, under the offsets that follow. -/
structure Grows (p p' : Partition xxh3) (added : List (StoredBatch xxh3)) : Prop where
  batches : p'.batches <:+ p.batches ++ added
  offsets : (messagesOf added).map PolledMessage.offset =
    range' (nextOffset p.polled) (messagesOf added).length
  next : nextOffset p'.polled = nextOffset p.polled + (messagesOf added).length
  bytes : p'.committedBytes = p.committedBytes + (rawsOf added).length

end Partition

/-- The reasons to answer a poll that do not depend on time. -/
def Finishes (xxh3 : Bytes → UInt64) (options : DeferredPollOptions) (maxReadBytes : Nat)
    (result : Poll.Selection) : Prop :=
  ∃ limited, limitBytes xxh3 (result.fragments.map bytes) options.maxBytes.toNat
      maxReadBytes = .ok limited ∧
    (options.minCount.toNat ≤ limited.messageCount ∨ limited.limited = true)

/-- A waiter after a complete read that did not finish it, with commits, probes and its deadline in
any order from there on. A commit that is made while the read runs comes after the read here: the
waiter does not look at it before. -/
inductive Follows {xxh3 : Bytes → UInt64} (maxReadBytes : Nat) : Partition xxh3 → Waiter → Prop
  | read {p : Partition xxh3} {w w' : Waiter} (hrunning : w.running = false)
      (hlast : w.lastVisibility = some p.visibility)
      (haccept : w.acceptDeferredResult xxh3 (p.read w.args) false false maxReadBytes =
        .ok (some w')) : Follows maxReadBytes p w'
  | commit {p p' : Partition xxh3} {w : Waiter} {added : List (StoredBatch xxh3)}
      (h : Follows maxReadBytes p w) (hgrows : p.Grows p' added) : Follows maxReadBytes p' w
  | probe {p : Partition xxh3} {w : Waiter} (h : Follows maxReadBytes p w) :
      Follows maxReadBytes p (w.parksAt p.visibility maxReadBytes).1
  | expire {p : Partition xxh3} {w : Waiter} (h : Follows maxReadBytes p w) :
      Follows maxReadBytes p { w with terminal := true }

/-! ## What a read weighs -/

section Weight

variable {xxh3 : Bytes → UInt64} {acc : Poll.Selection} {parts : List Bytes}
  {query : MessageLookup}

/-- The messages and the bytes of a reply that takes the frames from one batch. -/
def weight (fs : List Frame) : Nat × Nat :=
  (fs.length, if fs = [] then 0 else Batch.headerSize + framesSize fs)

theorem weight_mono {fs gs : List Frame} (h : fs <+ gs) : weight fs ≤ weight gs := by
  refine ⟨h.length_le, ?_⟩
  have hsize : framesSize fs ≤ framesSize gs := (h.map _).sum_le_sum fun _ _ => Nat.zero_le _
  simp only [weight]
  split
  · exact Nat.zero_le _
  case isFalse hne =>
    have hne' : gs ≠ [] := by
      rintro rfl
      exact hne (sublist_nil.mp h)
    rw [if_neg hne']
    exact Nat.add_le_add_left hsize _

/-- A reply is made of the batches `parts`, and it counts what they hold. -/
structure Carries (xxh3 : Bytes → UInt64) (acc : Poll.Selection) (parts : List Bytes) :
    Prop where
  pieces : ∀ rest, pieces (acc.fragments.map bytes ++ rest) = parts ++ Poll.pieces rest
  sound : ∀ part ∈ parts, Sound xxh3 part
  matched : acc.matched = (parts.map fun part => (pieceFrames part).length).sum

theorem Carries.pieces_eq (h : Carries xxh3 acc parts) :
    Poll.pieces (acc.fragments.map bytes) = parts := by
  simpa [Poll.pieces] using h.pieces []

theorem Carries.pushBatch (h : Carries xxh3 acc parts) (b : StoredBatch xxh3) :
    ∃ added, Carries xxh3 (pushBatch xxh3 query acc b.raw b.batch) (parts ++ added) ∧
      ((pushBatch xxh3 query acc b.raw b.batch).matched, (parts ++ added).flatten.length) =
        (acc.matched, parts.flatten.length) +
          weight ((b.batch.frames.filter (wantedFrame b.batch.header query)).take
            (query.count - acc.matched)) := by
  obtain ⟨chosen, hchosen, hcase⟩ := @pushBatch_cases xxh3 acc query b []
  rw [← hchosen]
  rw [append_nil] at hcase
  obtain ⟨rfl, hpush⟩ | ⟨pre, post, last, hframes, hlast, hpush⟩ := hcase
  · rw [hpush]
    exact ⟨[], by rwa [append_nil], by rw [append_nil]; rfl⟩
  rw [hpush]
  have hne : chosen ≠ [] := by
    rintro rfl
    exact nomatch hlast
  obtain ⟨part, cut, hcut, hbytes⟩ := @slices_pushSelected _ _ _ _ _ _ acc [] b.isBatch _
    (frameOffset b.batch.header last) hframes fun _ => rfl
  obtain ⟨hpieceFrames, hlength⟩ := hcut.isBatch.pieceFrames_eq
  rw [hcut.frames_eq] at hpieceFrames hlength
  refine ⟨[part], ⟨fun rest => ?_, ?_, ?_⟩, ?_⟩
  · simp only [pushSelectedBatchFragments, append_nil, flatMap_append, append_cancel_left_eq,
      map_append, append_assoc, h.pieces] at hbytes ⊢
    split at hbytes
    case isTrue hwhole =>
      rw [if_pos hwhole]
      rw [flatMap_singleton] at hbytes
      rw [map_singleton, hbytes]
      refine pieces_whole (fun heq => hne (framesSize_eq_zero ?_)) rest
      omega
    case isFalse hslice =>
      rw [if_neg hslice, ← hbytes]
      simp only [flatMap_cons, flatMap_nil, append_nil]
      exact pieces_split (Header.length_encode _) _ rest
  · exact forall_mem_append.mpr ⟨h.sound, forall_mem_singleton.mpr
      ⟨⟨cut, hcut.isBatch⟩, by rwa [hpieceFrames]⟩⟩
  · rw [map_append, sum_append, ← h.matched, map_singleton, sum_singleton, hpieceFrames]
    rfl
  · rw [weight, if_neg hne, flatten_append, length_append, flatten_singleton, hlength]
    rfl

/-- A walk weighs at most what is wanted of its batches, and just that if the count did not end
it. -/
theorem Carries.pushBatches (h : Carries xxh3 acc parts) (hroom : acc.matched ≤ query.count)
    (bs : List (StoredBatch xxh3)) :
    let demand := (bs.map fun b =>
      weight (b.batch.frames.filter (wantedFrame b.batch.header query))).sum
    let result := bs.foldl (fun acc b => Poll.pushBatch xxh3 query acc b.raw b.batch) acc
    ∃ parts', Carries xxh3 result parts' ∧
      (result.matched, parts'.flatten.length) ≤ (acc.matched, parts.flatten.length) + demand ∧
      (result.matched < query.count →
        (result.matched, parts'.flatten.length) = (acc.matched, parts.flatten.length) + demand) := by
  induction bs generalizing acc parts with
  | nil => exact ⟨parts, h, (add_zero _).ge, fun _ => (add_zero _).symm⟩
  | cons b rest ih =>
    obtain ⟨added, hadded, hweight⟩ := h.pushBatch b
    generalize hwant : b.batch.frames.filter (wantedFrame b.batch.header query) = want at hweight
    have hmatched := congrArg Prod.fst hweight
    simp only [Prod.fst_add, weight, length_take] at hmatched
    obtain ⟨parts', hcarries, hle, heq⟩ := ih hadded (by omega)
    simp only [map_cons, sum_cons, foldl_cons, hwant, ← add_assoc]
    refine ⟨parts', hcarries, hle.trans (add_le_add_left ?_ _), fun hcut => ?_⟩
    · rw [hweight]
      exact add_le_add_right (weight_mono (take_sublist _ _)) _
    · -- the count did not end the walk, so it did not cut this batch
      have hthis := congrArg Prod.fst (heq hcut)
      rw [Prod.fst_add] at hthis
      rw [heq hcut, hweight, take_of_length_le]
      omega

end Weight

/-! ## What a poll asks for -/

namespace Partition

variable {xxh3 : Bytes → UInt64} {p p' : Partition xxh3} {args : PollingArgs}
  {added : List (StoredBatch xxh3)}

/-- Whether the poll asks for a message. -/
def asks (p : Partition xxh3) (args : PollingArgs) (m : PolledMessage) : Bool :=
  (p.query? args).any fun query => wanted query m

/-- What the poll asks for of batches, with no count to end it. -/
def demand (p : Partition xxh3) (args : PollingArgs) (bs : List (StoredBatch xxh3)) : Nat × Nat :=
  (bs.map fun b => weight (b.batch.frames.filter fun f =>
    p.asks args ⟨frameOffset b.batch.header f, b.batch.header.baseTimestamp, f⟩)).sum

theorem asks_iff {m : PolledMessage} : p.asks args m = true ↔
    args.count ≠ 0 ∧ m.offset < nextOffset p.polled ∧
      if args.kind = .timestamp then args.value ≤ m.timestamp
      else p.polled.startOffset args ≤ m.offset := by
  unfold asks query? nextOffset
  cases p.polled.committedSeeded with
  | false => simp
  | true =>
    by_cases hcount : args.count = 0
    · simp [hcount]
    rw [if_neg (by simp [hcount]), PolledPartition.lookup]
    by_cases hkind : args.kind = .timestamp
    · simp [hcount, hkind, wanted_timestamp, Nat.lt_add_one_iff]
    by_cases hstart : p.polled.commitOffset < p.polled.startOffset args
    · rw [if_neg hkind, if_neg hkind, if_pos hstart, if_pos rfl, Option.any_none,
        iff_false_left Bool.false_ne_true]
      omega
    · simp [hcount, hkind, hstart, wanted_offset, Nat.lt_add_one_iff]

theorem serves_pushBatches {query : MessageLookup} {acc : Poll.Selection} {ms : List PolledMessage}
    (h : acc.Serves xxh3 ms) (bs : List (StoredBatch xxh3)) :
    (bs.foldl (fun acc b => pushBatch xxh3 query acc b.raw b.batch) acc).Serves xxh3
      (served query ms bs) := by
  induction bs generalizing acc ms with
  | nil => rwa [served_nil]
  | cons b bs ih =>
    have hpush := @serves_pushBatch _ _ _ query h b []
    rw [append_nil] at hpush
    have hrest := ih hpush
    rw [← singleton_append, ← served_served]
    simpa [served, messagesOf] using hrest

/-- **The read is a poll of the tiers.** It returns the first of the messages that the poll asks the
partition for. -/
theorem readMessages_read (p : Partition xxh3) (args : PollingArgs) :
    readMessages xxh3 (p.read args).fragments =
      (p.polled.requested (p.batches ++ p.hidden) args).take args.count := by
  unfold read query?
  split
  case isTrue hnone =>
    have hempty : (p.polled.requested (p.batches ++ p.hidden) args).take args.count = [] := by
      rcases hnone with hseeded | hcount
      · simp [requested, hseeded]
      · rw [hcount, take_zero]
    rw [hempty]
    exact serves_nil.readMessages
  case isFalse hsome =>
    simp only [not_or, not_not] at hsome
    cases hlookup : p.polled.lookup args with
    | none =>
      rw [p.holds.requested_of_no_lookup hlookup, take_nil]
      exact serves_nil.readMessages
    | some query =>
      obtain ⟨hrequested, hcount, hceiling⟩ := p.holds.requested_of_lookup hsome.1 hlookup
      have hhidden : (messagesOf p.hidden).filter (wanted query) = [] := by
        refine filter_eq_nil_iff.mpr fun m hm hwanted => ?_
        have habove := p.above m hm
        rw [wanted, Bool.and_eq_true, decide_eq_true_eq, hceiling] at hwanted
        rw [nextOffset, if_pos hsome.1] at habove
        omega
      have hserves := (@serves_pushBatches _ query _ _ serves_nil p.batches).readMessages
      rw [served_nil_left] at hserves
      rw [hrequested, messagesOf_append, filter_append, hhidden, append_nil, ← hcount]
      exact hserves

/-- **A complete read.** It weighs at most what the poll asks for, and just that if the count did
not end it. -/
theorem read_weighs (p : Partition xxh3) (args : PollingArgs) :
    ∃ parts, Carries xxh3 (p.read args) parts ∧
      ((p.read args).matched, parts.flatten.length) ≤ p.demand args p.batches ∧
      ((p.read args).matched < args.count →
        ((p.read args).matched, parts.flatten.length) = p.demand args p.batches) := by
  have hnone : Carries xxh3 {} [] := ⟨fun _ => rfl, nofun, rfl⟩
  rw [read, demand]
  simp only [asks]
  cases hquery : p.query? args with
  | none =>
    have hzero : (p.batches.map fun _ => weight []).sum = 0 := by simp [weight]
    simp only [Option.elim_none, Option.any_none, filter_false, hzero]
    exact ⟨[], hnone, le_rfl, fun _ => rfl⟩
  | some query =>
    have hcount : query.count = args.count := by
      simp only [query?, PolledPartition.lookup] at hquery
      grind [MessageLookup.count]
    obtain ⟨parts, hcarries, hweighs⟩ := hnone.pushBatches (Nat.zero_le query.count) p.batches
    rw [hcount, flatten_nil, length_nil] at hweighs
    rw [show ((0, 0) : Nat × Nat) = 0 from rfl, zero_add] at hweighs
    exact ⟨parts, hcarries, hweighs⟩

theorem Grows.asks_of_asks (h : p.Grows p' added) (hkind : args.kind ≠ .next) {m : PolledMessage}
    (hold : m.offset < nextOffset p.polled) (hasks : p'.asks args m = true) :
    p.asks args m = true := by
  obtain ⟨hcount, hnew, hselects⟩ := asks_iff.mp hasks
  refine asks_iff.mpr ⟨hcount, hold, ?_⟩
  have hcommit : p.polled.commitOffset ≤ p'.polled.commitOffset := by
    have hnext := h.next
    simp only [nextOffset] at hnext hold hnew
    grind
  split at hselects
  case isTrue htime => rwa [if_pos htime]
  case isFalse htime =>
    rw [if_neg htime]
    refine le_trans ?_ hselects
    simp only [startOffset]
    cases hk : args.kind with
    | next => exact absurd hk hkind
    | last => exact Nat.sub_le_sub_right hcommit _
    | _ => exact le_rfl

theorem demand_append (bs bs' : List (StoredBatch xxh3)) :
    p.demand args (bs ++ bs') = p.demand args bs + p.demand args bs' := by
  rw [demand, map_append, sum_append, demand, demand]

theorem demand_le_messages (bs : List (StoredBatch xxh3)) :
    p.demand args bs ≤ ((messagesOf bs).countP (p.asks args), (rawsOf bs).length) := by
  induction bs with
  | nil => exact le_rfl
  | cons b rest ih =>
    have hthis : weight (b.batch.frames.filter fun f =>
        p.asks args ⟨frameOffset b.batch.header f, b.batch.header.baseTimestamp, f⟩) ≤
        ((messages b.batch).countP (p.asks args), b.raw.length) := by
      refine ⟨?_, ?_⟩
      · rw [messages, countP_map, countP_eq_length_filter]
        exact le_rfl
      · refine (weight_mono (filter_sublist)).2.trans ?_
        rw [b.isBatch.pieceFrames_eq.2, weight]
        dsimp only
        split <;> omega
    refine (add_le_add hthis ih).trans_eq ?_
    rw [Prod.mk_add_mk, ← countP_append, ← length_append]
    rfl

theorem countP_range'_le (first last start : Nat) :
    (range' first last).countP (fun offset => start ≤ offset) ≤ first + last - max first start := by
  induction last with
  | zero => exact Nat.zero_le _
  | succ n ih =>
    rw [range'_1_concat, countP_append, countP_singleton]
    split
    case isTrue h =>
      have := of_decide_eq_true h
      omega
    case isFalse => omega

/-- **A commit.** It adds at most its own messages and bytes to what a poll asks for. -/
theorem Grows.demand_le (h : p.Grows p' added) (w : Waiter) :
    p'.demand w.args p'.batches ≤ p.demand w.args p.batches +
      (nextOffset p'.polled - w.addsFrom (nextOffset p.polled), (rawsOf added).length) := by
  obtain ⟨trimmed, htrimmed⟩ := h.batches
  have hall : p'.demand w.args p'.batches ≤ p'.demand w.args (p.batches ++ added) := by
    rw [← htrimmed, demand_append]
    exact le_add_self
  refine hall.trans ?_
  rw [demand_append]
  refine add_le_add (sum_le_sum fun b hb => weight_mono ?_) ((demand_le_messages added).trans ⟨?_, le_rfl⟩)
  · -- what is asked of an old batch now was asked of it before
    have hold : ∀ f ∈ b.batch.frames, _ → _ := fun f hf => h.asks_of_asks w.kind_ne_next
      (p.below _ (mem_flatMap.mpr ⟨b, hb, mem_map_of_mem hf⟩))
    rw [← filter_eq_self.mpr fun f hf => hold f (mem_filter.mp hf).1 (mem_filter.mp hf).2]
    exact filter_sublist.filter _
  · obtain ⟨start, hstart, hasks⟩ : ∃ start,
        w.addsFrom (nextOffset p.polled) = max (nextOffset p.polled) start ∧
        ∀ m, p'.asks w.args m = true → start ≤ m.offset := by
      by_cases hoffset : w.args.kind = .offset
      · refine ⟨w.args.value, if_pos hoffset, fun m hm => ?_⟩
        simpa [hoffset, startOffset] using (asks_iff.mp hm).2.2
      · exact ⟨0, (if_neg hoffset).trans (Nat.max_zero _).symm, fun _ _ => Nat.zero_le _⟩
    calc (messagesOf added).countP (p'.asks w.args)
        ≤ (messagesOf added).countP ((fun offset => start ≤ offset) ∘ PolledMessage.offset) :=
          countP_mono_left fun m _ hm => decide_eq_true (hasks m hm)
      _ = (range' (nextOffset p.polled) (messagesOf added).length).countP
            (fun offset => start ≤ offset) := by rw [← countP_map, h.offsets]
      _ ≤ nextOffset p'.polled - w.addsFrom (nextOffset p.polled) := by
          rw [h.next, hstart]
          exact countP_range'_le ..

end Partition

/-! ## The bound of a parked waiter -/

section Parked

variable {xxh3 : Bytes → UInt64} {maxReadBytes : Nat} {p p' p'' : Partition xxh3} {w : Waiter}
  {added added' : List (StoredBatch xxh3)}

theorem Carries.limitBytes {acc : Poll.Selection} {parts : List Bytes}
    {options : DeferredPollOptions} {limited : LimitedRead} (h : Carries xxh3 acc parts)
    (hlimit : limitBytes xxh3 (acc.fragments.map bytes) options.maxBytes.toNat
      maxReadBytes = .ok limited) :
    Counts { remaining := replyByteLimit options maxReadBytes } limited acc.matched
      parts.flatten.length := by
  simp only [Poll.limitBytes, bind_eq_ok, require_eq_ok, exists_const, Nat.sub_min_sub_right] at hlimit
  have hcounts := limitFragments_counts rfl (h.pieces_eq ▸ h.sound) hlimit.2
  rwa [h.pieces_eq, ← h.matched] at hcounts

/-- The waiter's bound is one on what it asks of `p`, and it does not finish the poll. -/
structure Parked (maxReadBytes : Nat) (w : Waiter) (p : Partition xxh3) : Prop where
  last : w.lastVisibility = some p.visibility
  messages : min (p.demand w.args p.batches).1 u32Max ≤ w.selected.messages
  bytes : min (p.demand w.args p.batches).2 wordMax ≤ w.selected.bytes
  few : w.selected.messages < w.options.minCount.toNat
  small : w.selected.bytes < replyByteLimit w.options maxReadBytes ∨ w.selected.bytes = 0

theorem parked_accept {w' : Waiter} (hlast : w.lastVisibility = some p.visibility)
    (h : w.acceptDeferredResult xxh3 (p.read w.args) false false maxReadBytes = .ok (some w')) :
    Parked maxReadBytes w' p ∧ w'.running = w.running := by
  simp only [Waiter.acceptDeferredResult, bind_eq_ok, Except.ok.injEq] at h
  obtain ⟨limited, hlimit, h⟩ := h
  split at h
  · cases h
  rename_i hgo
  cases h
  simp only [not_or, Nat.not_le, Bool.not_eq_true] at hgo
  obtain ⟨parts, hcarries, -, hread⟩ := p.read_weighs w.args
  obtain ⟨hcount, hbytes, hsmall⟩ := (hcarries.limitBytes hlimit).whole hgo.2.1
  rw [Nat.zero_add] at hcount
  rw [flatten_nil, length_nil, Nat.zero_add] at hbytes
  have hdemand := hread (hcount ▸ hgo.1.trans_le w.minCount_le)
  refine ⟨⟨hlast, ?_, ?_, hgo.1, by rwa [hbytes]⟩, rfl⟩
  · rw [← hdemand, hcount]
    exact min_le_left ..
  · rw [← hdemand, hbytes]
    exact min_le_left ..

theorem DeferredPollOptions.caps (options : DeferredPollOptions) (maxReadBytes : Nat) :
    options.minCount.toNat ≤ u32Max ∧ replyByteLimit options maxReadBytes ≤ wordMax ∧
      0 < wordMax := by
  have hcount := options.minCount.toNat_lt
  have hbytes := options.maxBytes.toNat_lt
  simp only [replyByteLimit, wordMax, u32Max]
  omega

theorem flatten_pieces (fragments : List Bytes) :
    (pieces fragments).flatten = fragments.flatten := by
  fun_induction pieces fragments <;> simp_all

theorem Parked.bounds (h : Parked maxReadBytes w p) :
    min (p.read w.args).matched u32Max ≤ w.selected.messages ∧
      min (encodedBytes (p.read w.args)) wordMax ≤ w.selected.bytes ∧
      ¬ Finishes xxh3 w.options maxReadBytes (p.read w.args) := by
  obtain ⟨parts, hcarries, hread, -⟩ := p.read_weighs w.args
  have hbytes : encodedBytes (p.read w.args) = parts.flatten.length := by
    rw [encodedBytes, ← flatten_pieces, hcarries.pieces_eq]
  have hmessages := (min_le_min_right u32Max hread.1).trans h.messages
  have hsize := (min_le_min_right wordMax hread.2).trans h.bytes
  refine ⟨hmessages, hbytes ▸ hsize, ?_⟩
  rintro ⟨limited, hlimit, hfinishes⟩
  obtain ⟨hcount, hlimited, -⟩ := hcarries.limitBytes hlimit
  rw [Nat.zero_add] at hcount
  have hcaps := w.options.caps maxReadBytes
  have hfew := h.few
  have hsmall := h.small
  dsimp only at hmessages hsize hcount
  obtain hmany | hover := hfinishes
  · omega
  · have hlimited := hlimited hover
    dsimp only at hlimited
    omega

theorem nextOffset_eq (p : Partition xxh3) :
    p.visibility.offset.elim 0 (fun offset => saturate (offset + 1)) = nextOffset p.polled := by
  simp only [nextOffset, Partition.visibility]
  split
  case isTrue hseeded => exact min_eq_left (Nat.le_sub_one_of_lt p.holds.commit_lt)
  case isFalse => rfl

theorem Parked.selectionAt (h : Parked maxReadBytes w p) (hgrows : p.Grows p' added) :
    ∃ selected, w.selectionAt p'.visibility = some selected ∧
      min (p'.demand w.args p'.batches).1 u32Max ≤ selected.messages ∧
      min (p'.demand w.args p'.batches).2 wordMax ≤ selected.bytes ∧
      (p.visibility = p'.visibility → selected = w.selected) := by
  have hsub : ∀ start, p'.visibility.offset.elim 0 (fun offset => saturate (offset + 1) - start) =
      nextOffset p'.polled - start := by
    intro start
    rw [← nextOffset_eq p']
    cases p'.visibility.offset
    · exact (Nat.zero_sub _).symm
    · rfl
  have hselected : w.selectionAt p'.visibility = some
      ⟨min (w.selected.messages + (nextOffset p'.polled - w.addsFrom (nextOffset p.polled))) u32Max,
        min (w.selected.bytes + (p'.committedBytes - p.committedBytes)) wordMax⟩ := by
    simp only [Waiter.selectionAt, h.last, Option.map_some, hsub, nextOffset_eq]
    rfl
  obtain ⟨hmore, hlarger⟩ := hgrows.demand_le w
  rw [Prod.fst_add] at hmore
  rw [Prod.snd_add] at hlarger
  have hmessages := h.messages
  have hbytes := h.bytes
  have hnew := hgrows.bytes
  refine ⟨_, hselected, by dsimp only at *; omega, by dsimp only at *; omega, fun hsame => ?_⟩
  have hcaps := w.options.caps maxReadBytes
  have hfew := h.few
  have hsmall := h.small
  have hnext : nextOffset p'.polled ≤ w.addsFrom (nextOffset p.polled) := by
    rw [← nextOffset_eq, ← hsame, nextOffset_eq, Waiter.addsFrom]
    split
    · exact le_max_left ..
    · exact le_rfl
  have hcommitted : p'.committedBytes = p.committedBytes :=
    congrArg PollVisibility.committedBytes hsame.symm
  rw [Nat.sub_eq_zero_of_le hnext, hcommitted, Nat.sub_self, Nat.add_zero, Nat.add_zero,
    min_eq_left (by omega), min_eq_left (by omega)]

theorem Partition.Grows.refl (p : Partition xxh3) : p.Grows p [] :=
  ⟨by simp, by simp [messagesOf], by simp [messagesOf], by simp⟩

/-- **One probe.** It leaves a bound that does not finish the poll, and it parks the waiter only if
that bound is about the partition as it is. -/
theorem Parked.parksAt (h : Parked maxReadBytes w p) (hgrows : p.Grows p' added)
    (hrunning : w.running = false) :
    ∃ p₀ added₀, Parked maxReadBytes (w.parksAt p'.visibility maxReadBytes).1 p₀ ∧
      p₀.Grows p' added₀ ∧
      ((w.parksAt p'.visibility maxReadBytes).2 = true → p₀ = p') := by
  obtain ⟨selected, hselected, hmessages, hbytes, hsame⟩ := h.selectionAt hgrows
  by_cases hterminal : w.terminal = true
  · have hmoved : w.parksAt p'.visibility maxReadBytes = (w, false) := by
      simp [Waiter.parksAt, hrunning, hterminal]
    rw [hmoved]
    exact ⟨p, added, h, hgrows, nofun⟩
  by_cases hlast : w.lastVisibility = some p'.visibility
  · have hmoved : (w.parksAt p'.visibility maxReadBytes).1 = w := by simp [Waiter.parksAt, hlast]
    obtain rfl := hsame (Option.some.inj (h.last.symm.trans hlast))
    rw [hmoved]
    exact ⟨p', [], ⟨hlast, hmessages, hbytes, h.few, h.small⟩, Partition.Grows.refl p', fun _ => rfl⟩
  by_cases hfinishes : selected.finishesRead w.options maxReadBytes = true
  · have hmoved : w.parksAt p'.visibility maxReadBytes = (w, false) := by
      simp [Waiter.parksAt, hrunning, hterminal, hlast, hselected, hfinishes]
    rw [hmoved]
    exact ⟨p, added, h, hgrows, nofun⟩
  · have hmoved : (w.parksAt p'.visibility maxReadBytes).1 =
        { w with lastVisibility := some p'.visibility, selected } := by
      simp [Waiter.parksAt, hrunning, hterminal, hlast, hselected, hfinishes]
    simp only [Selection.finishesRead, Bool.or_eq_true, decide_eq_true_eq, not_or, not_le]
      at hfinishes
    rw [hmoved]
    exact ⟨p', [], ⟨rfl, hmessages, hbytes, hfinishes.1, .inl hfinishes.2⟩, Partition.Grows.refl p', fun _ => rfl⟩

theorem Partition.Grows.trans (h : p.Grows p' added) (h' : p'.Grows p'' added') :
    p.Grows p'' (added ++ added') where
  batches := by
    obtain ⟨trimmed, htrimmed⟩ := h.batches
    refine h'.batches.trans ⟨trimmed, ?_⟩
    rw [← append_assoc, htrimmed, append_assoc]
  offsets := by
    rw [messagesOf_append, map_append, h.offsets, h'.offsets, h.next, length_append, range'_append_1]
  next := by rw [h'.next, h.next, messagesOf_append, length_append, Nat.add_assoc]
  bytes := by rw [h'.bytes, h.bytes, rawsOf_append, length_append, Nat.add_assoc]

theorem Waiter.parksAt_keeps (w : Waiter) (visibility : PollVisibility) :
    (w.parksAt visibility maxReadBytes).1.args = w.args ∧
      (w.parksAt visibility maxReadBytes).1.options = w.options ∧
      (w.parksAt visibility maxReadBytes).1.running = w.running := by
  simp only [Waiter.parksAt]
  grind

theorem Follows.parked (h : Follows maxReadBytes p w) :
    w.running = false ∧ ∃ p₀ added, Parked maxReadBytes w p₀ ∧ p₀.Grows p added := by
  induction h with
  | @read p w w' hrunning hlast haccept =>
    obtain ⟨hparked, hsame⟩ := parked_accept hlast haccept
    exact ⟨hsame.trans hrunning, p, [], hparked, .refl p⟩
  | commit _ hgrows ih =>
    obtain ⟨hrunning, p₀, added₀, hparked, hgrown⟩ := ih
    exact ⟨hrunning, p₀, _, hparked, hgrown.trans hgrows⟩
  | @probe p w _ ih =>
    obtain ⟨hrunning, p₀, added₀, hparked, hgrown⟩ := ih
    obtain ⟨p₁, added₁, hparked₁, hgrown₁, -⟩ := hparked.parksAt hgrown hrunning
    exact ⟨(w.parksAt_keeps _).2.2.trans hrunning, p₁, added₁, hparked₁, hgrown₁⟩
  | expire _ ih =>
    obtain ⟨hrunning, p₀, added₀, hparked, hgrown⟩ := ih
    exact ⟨hrunning, p₀, added₀, ⟨hparked.1, hparked.2, hparked.3, hparked.4, hparked.5⟩, hgrown⟩

end Parked

def oneVisible : Partition zeroHash where
  polled := straddled 0
  stored := [[batchAt 0, batchAt 1]]
  batches := [batchAt 0]
  hidden := [batchAt 1, batchAt 3]
  committedBytes := 0
  holds := straddled_holds (by decide)
  below := by decide +kernel
  above := by decide +kernel

def twoVisible : Partition zeroHash where
  polled := straddled 1
  stored := [[batchAt 0, batchAt 1]]
  batches := [batchAt 0, batchAt 1]
  hidden := [batchAt 3]
  committedBytes := (batchAt 1).raw.length
  holds := straddled_holds (by decide)
  below := by decide +kernel
  above := by decide +kernel

/-- A poll for two messages that reads a partition with one. -/
def waitsForTwo : Waiter where
  args := ⟨.first, 0, 5⟩
  options := ⟨2, 1000⟩
  lastVisibility := some oneVisible.visibility
  minCount_le := by decide
  kind_ne_next := by decide

end Iggy.DeferredPoll
