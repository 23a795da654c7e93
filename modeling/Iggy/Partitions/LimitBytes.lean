import Iggy.Partitions.BatchSelection

/-!
# Cutting a poll's reply to its byte budget

Source: partitions/src/poll_plan.rs:219-297.

`PollReadResult::limit_bytes` walks the fragments of a reply batch by batch, a batch being one
fragment or a header's fragment with the next one behind it, and keeps the frames that still fit.
The batch at one place of the reply is a prefix of the batch at the same place before the cut
(`cuts_limitBytes`), whatever stands in the other places.
-/

namespace Iggy.Poll

open List Lib Batch Header

inductive LimitError
  | invalidSizeBytes | cannotReadMessage
  deriving DecidableEq

def pollResponseHeaderSize : Nat := 16 + 3 * 8

structure TakenFrames where
  selected : Nat := 0
  stop : Nat := 0
  lastMatchingOffset : Option Nat
  limited : Bool := false
  deriving DecidableEq

/-- The loop over the frames of a batch; the first frame of a reply has the whole of `ceiling`. -/
def limitFrames (header : Header) (ceiling remaining messageCount : Nat) :
    List Framed → TakenFrames → Except LimitError TakenFrames
  | [], acc => .ok acc
  | record :: rest, acc =>
    let limit := if messageCount = 0 ∧ acc.selected = 0 then ceiling else remaining
    if limit < headerSize + record.stop then .ok { acc with limited := true }
    else do
      let offset := header.baseOffset + record.message.header.offsetDelta
      require (offset < 2 ^ 64) .cannotReadMessage
      limitFrames header ceiling remaining messageCount rest
        { acc with
          selected := acc.selected + 1
          stop := record.stop
          lastMatchingOffset := some offset }

/-- What the walk has kept; `done` is its early exit. -/
structure LimitedRead where
  fragments : List Bytes := []
  messageCount : Nat := 0
  lastMatchingOffset : Option Nat := none
  remaining : Nat
  limited : Bool := false
  done : Bool := false
  deriving DecidableEq

section

variable (xxh3 : Bytes → UInt64)

/-- One batch: `source` is the fragment its header was read from. -/
def limitBatch (ceiling : Nat) (acc : LimitedRead) (header : Header) (source body : Bytes) :
    Except LimitError LimitedRead := do
  require (body.length = header.blobLen) .cannotReadMessage
  let taken ← limitFrames header ceiling acc.remaining acc.messageCount
    (framedFrom 0 (framing.records body)) { lastMatchingOffset := acc.lastMatchingOffset }
  if taken.selected = 0 then
    require (acc.messageCount ≠ 0) .invalidSizeBytes
    .ok { acc with limited := taken.limited, done := true }
  else
    let remaining := acc.remaining - (headerSize + taken.stop)
    let limited := taken.limited || remaining == 0
    let kept :=
      if taken.selected = header.messageCount ∧ source.length ≠ headerSize then [source]
      else [(slicedHeader xxh3 header taken.selected (body.take taken.stop)).encode,
        body.take taken.stop]
    .ok { fragments := acc.fragments ++ kept
          messageCount := acc.messageCount + taken.selected
          lastMatchingOffset := taken.lastMatchingOffset
          remaining, limited
          done := limited }

/-- The loop over the fragments: a fragment that is a header takes the next one as its body. -/
def limitFragments (ceiling : Nat) :
    List Bytes → LimitedRead → Except LimitError LimitedRead
  | [], acc => .ok acc
  | source :: rest, acc => do
    let header ← (decode source).mapError fun _ => LimitError.cannotReadMessage
    if source.length = headerSize then
      match rest with
      | [] => .error .cannotReadMessage
      | body :: rest =>
        let next ← limitBatch xxh3 ceiling acc header source body
        if next.done then .ok next else limitFragments ceiling rest next
    else
      let next ← limitBatch xxh3 ceiling acc header source (source.drop headerSize)
      if next.done then .ok next else limitFragments ceiling rest next

def limitBytes (fragments : List Bytes) (maxBytes budget : Nat) :
    Except LimitError LimitedRead := do
  require (pollResponseHeaderSize ≤ maxBytes) .invalidSizeBytes
  let ceiling := maxBytes - pollResponseHeaderSize
  limitFragments xxh3 ceiling fragments
    { remaining := min ceiling (budget - pollResponseHeaderSize) }

end

/-- The batches of a reply, as the walk pairs its fragments. -/
def pieces : List Bytes → List Bytes
  | [] => []
  | source :: rest =>
    if source.length = headerSize then
      match rest with
      | [] => [source]
      | body :: rest => (source ++ body) :: pieces rest
    else source :: pieces rest

/-! ## What is kept of a batch -/

section Limit

variable {xxh3 : Bytes → UInt64} {header : Header} {ceiling : Nat}

theorem limitFrames_eq_ok {remaining messageCount position : Nat} {fs : List Frame}
    {acc taken : TakenFrames} (hstop : acc.stop = position) (hgo : acc.limited = false)
    (h : limitFrames header ceiling remaining messageCount (framedFrom position fs) acc =
      .ok taken) :
    ∃ chosen post, fs = chosen ++ post ∧ taken.selected = acc.selected + chosen.length ∧
      taken.stop = position + framesSize chosen ∧ (taken.limited = false → post = []) ∧
      (taken.limited = true →
        (if messageCount = 0 ∧ taken.selected = 0 then ceiling else remaining) <
          headerSize + (position + framesSize fs)) := by
  induction fs generalizing position acc with
  | nil =>
    cases h
    exact ⟨[], [], rfl, rfl, hstop, fun _ => rfl, fun hlimited => by simp [hgo] at hlimited⟩
  | cons f rest ih =>
    have hsize : framesSize (f :: rest) = f.header.totalSize + framesSize rest := rfl
    simp only [framedFrom, limitFrames] at h
    by_cases hover : (if messageCount = 0 ∧ acc.selected = 0 then ceiling else remaining) <
        headerSize + (position + f.header.totalSize)
    · rw [if_pos hover] at h
      cases h
      refine ⟨[], f :: rest, rfl, rfl, hstop, (by cases ·), fun _ => hover.trans_le ?_⟩
      rw [hsize]
      omega
    · rw [if_neg hover] at h
      simp only [bind_eq_ok, require_eq_ok, exists_const] at h
      obtain ⟨chosen, post, rfl, hselected, hend, hall, hlimited⟩ :=
        @ih (position + f.header.totalSize)
          { acc with selected := _, stop := _, lastMatchingOffset := _ } rfl hgo h.2
      refine ⟨f :: chosen, post, rfl, ?_, ?_, hall, ?_⟩
      · rw [hselected, length_cons, Nat.add_assoc, Nat.add_comm 1]
      · rw [hend, framesSize, framesSize, map_cons, sum_cons, Nat.add_assoc]
      · rwa [hsize, ← Nat.add_assoc position]

/-- `next` is what was kept of the batch `part`: some of its first frames. -/
def Cuts (xxh3 : Bytes → UInt64) (part next : Bytes) : Prop :=
  ∀ batch, IsBatch xxh3 part batch →
    ∃ chosen post cut, batch.frames = chosen ++ post ∧ Slices xxh3 batch chosen next cut

variable {source : Bytes}

theorem pieces_split (h : source.length = headerSize) (body : Bytes)
    (rest : List Bytes) :
    pieces (source :: body :: rest) = (source ++ body) :: pieces rest := by
  rw [pieces, if_pos h]

theorem pieces_whole (h : source.length ≠ headerSize) (rest : List Bytes) :
    pieces (source :: rest) = source :: pieces rest :=
  (pieces.eq_def (source :: rest)).trans (if_neg h)

variable {acc : LimitedRead}

theorem limitBatch_eq_ok {next : LimitedRead} {body : Bytes}
    (hheader : decode source = .ok header)
    (hpart : source.length = headerSize ∨ body = source.drop headerSize)
    (h : limitBatch xxh3 ceiling acc header source body = .ok next) :
    next.done = true ∧ next.fragments = acc.fragments ∨
      ∃ kept piece, next.fragments = acc.fragments ++ kept ∧
        (∀ rest, pieces (kept ++ rest) = piece :: pieces rest) ∧
        Cuts xxh3 (source.take headerSize ++ body) piece := by
  simp only [limitBatch, bind_eq_ok, require_eq_ok, exists_const] at h
  obtain ⟨hbody, taken, hframes, h⟩ := h
  have hsource := (decode_eq_ok.mp hheader).1
  obtain ⟨chosen, post, hsplit, hselected, hstop, -⟩ :=
    @limitFrames_eq_ok header ceiling _ _ 0 _ _ _ rfl rfl hframes
  rw [Nat.zero_add] at hselected hstop
  split at h
  · simp only [bind_eq_ok, require_eq_ok, exists_const, Except.ok.injEq] at h
    obtain ⟨-, rfl⟩ := h
    exact .inl ⟨rfl, rfl⟩
  · cases h
    refine .inr ?_
    -- the batch that stands in the two fragments, should there be one
    have hread : ∀ batch, IsBatch xxh3 (source.take headerSize ++ body) batch →
        batch.header = header ∧ batch.blob = body ∧ batch.frames = chosen ++ post := by
      intro batch hbatch
      have hblob : batch.blob = body := by
        rw [hbatch.blob_eq, drop_left' (length_take_of_le hsource)]
      refine ⟨?_, hblob, by rw [BatchRef.frames, hblob, hsplit]⟩
      have hdecode := (decodeBatchSliceWith_eq_ok.mp hbatch.1).1
      rw [← decode_take hbatch.headerSize_le,
        take_left' (length_take_of_le hsource), decode_take hsource, hheader] at hdecode
      exact (Except.ok.inj hdecode).symm
    split
    case isTrue hwhole =>
      have heq : source.take headerSize ++ body = source := by
        rw [hpart.resolve_left hwhole.2, take_append_drop]
      refine ⟨_, source, rfl, pieces_whole hwhole.2, fun batch hbatch => ?_⟩
      obtain ⟨-, -, hall⟩ := hread batch hbatch
      rw [heq] at hbatch
      exact ⟨batch.frames, [], batch, (append_nil _).symm, slices_self hbatch⟩
    case isFalse =>
      refine ⟨_, _, rfl, pieces_split (length_encode _) _, fun batch hbatch => ?_⟩
      obtain ⟨rfl, rfl, hall⟩ := hread batch hbatch
      have htake : batch.blob.take taken.stop = chosen.flatMap Frame.bytes := by
        have hprefix := hbatch.take_drop_blob
          (show batch.frames = [] ++ chosen ++ post from hall) []
        rwa [append_nil, show framesSize [] = 0 from rfl, drop_zero, ← hstop] at hprefix
      rw [htake, hselected]
      exact ⟨chosen, post, _, hall,
        slices_sliced hbatch (show batch.frames = [] ++ chosen ++ post from hall)⟩

/-- Pieces that are kept one after the other. -/
def Kept (acc : LimitedRead) (parts : List Bytes) : Prop :=
  ∀ rest, pieces (acc.fragments ++ rest) = parts ++ pieces rest

theorem Kept.step {next : LimitedRead} {parts kept : List Bytes} {piece : Bytes}
    (h : Kept acc parts) (hnext : next.fragments = acc.fragments ++ kept)
    (hpiece : ∀ rest, pieces (kept ++ rest) = piece :: pieces rest) :
    Kept next (parts ++ [piece]) := by
  intro rest
  rw [hnext, append_assoc, h, hpiece, append_assoc]
  rfl

theorem limitFragments_walk {motive : List Bytes → LimitedRead → LimitedRead → Prop}
    (nil : ∀ acc, motive [] acc acc)
    (batch : ∀ {source body : Bytes} {header : Header} {acc next result : LimitedRead}
      {parts : List Bytes}, decode source = .ok header →
      (source.length = headerSize ∨ body = source.drop headerSize) →
      limitBatch xxh3 ceiling acc header source body = .ok next →
      (next.done = true ∧ result = next ∨ next.done = false ∧ motive parts next result) →
      motive ((source.take headerSize ++ body) :: parts) acc result)
    {fragments : List Bytes} {result : LimitedRead}
    (h : limitFragments xxh3 ceiling fragments acc = .ok result) :
    motive (pieces fragments) acc result := by
  induction hn : fragments.length using Nat.strong_induction_on generalizing fragments acc with
  | h n ih =>
  -- the step of both forms of a batch
  have hstep : ∀ {source body : Bytes} {header : Header} {rest : List Bytes},
      decode source = .ok header → rest.length < n →
      (source.length = headerSize ∨ body = source.drop headerSize) →
      (do let next ← limitBatch xxh3 ceiling acc header source body
          if next.done then .ok next else limitFragments xxh3 ceiling rest next) = .ok result →
      motive ((source.take headerSize ++ body) :: pieces rest) acc result := by
    intro source body header rest hheader hlen hpart h
    rw [bind_eq_ok] at h
    obtain ⟨next, hbatch, h⟩ := h
    refine batch hheader hpart hbatch ?_
    split at h
    case isTrue hdone => exact .inl ⟨hdone, (Except.ok.inj h).symm⟩
    case isFalse hgo => exact .inr ⟨by simpa using hgo, ih _ hlen h rfl⟩
  cases fragments with
  | nil =>
    cases h
    exact nil _
  | cons source rest =>
    rw [limitFragments, bind_eq_ok] at h
    obtain ⟨header, hheader, h⟩ := h
    have hheader := mapError_eq_ok.mp hheader
    split at h
    case isTrue hsize =>
      cases rest with
      | nil => exact nomatch h
      | cons body rest =>
        have hread := hstep hheader (by simp only [length_cons] at hn; omega) (.inl hsize) h
        rwa [take_of_length_le hsize.le, ← pieces_split hsize] at hread
    case isFalse hsize =>
      have hread := hstep hheader (by simp only [length_cons] at hn; omega) (.inr rfl) h
      rwa [take_append_drop, ← pieces_whole hsize] at hread

theorem limitFragments_eq_ok {fragments parts : List Bytes} {result : LimitedRead}
    (hkept : Kept acc parts) (h : limitFragments xxh3 ceiling fragments acc = .ok result) :
    ∃ kept, Kept result (parts ++ kept) ∧
      ∃ n, List.Forall₂ (Cuts xxh3) ((pieces fragments).take n) kept := by
  refine limitFragments_walk (motive := fun source acc result => ∀ parts, Kept acc parts →
    ∃ kept, Kept result (parts ++ kept) ∧ ∃ n, List.Forall₂ (Cuts xxh3) (source.take n) kept)
    ?nil ?batch h parts hkept
  case nil => exact fun _ _ hkept => ⟨[], by rwa [append_nil], 0, .nil⟩
  case batch =>
    intro source body header acc next result pieces hheader hpart hbatch hrest parts hkept
    obtain ⟨hdone, hsame⟩ | ⟨kept, piece, hnext, hpiece, hcuts⟩ :=
      limitBatch_eq_ok hheader hpart hbatch
    · obtain ⟨-, rfl⟩ := hrest.resolve_right fun h => by rw [hdone] at h; exact nomatch h.1
      refine ⟨[], ?_, 0, .nil⟩
      rw [append_nil, Kept, hsame]
      exact hkept
    · have hkept' := hkept.step hnext hpiece
      obtain ⟨-, rfl⟩ | ⟨-, ih⟩ := hrest
      · exact ⟨[piece], hkept', 1, .cons hcuts .nil⟩
      · obtain ⟨more, hmore, m, hall⟩ := ih _ hkept'
        refine ⟨piece :: more, ?_, m + 1, .cons hcuts hall⟩
        rwa [append_assoc] at hmore

/-- **A cut reply.** At each place it has some of the first frames of the batch that was there. -/
theorem cuts_limitBytes {fragments : List Bytes} {maxBytes budget : Nat}
    {result : LimitedRead} (h : limitBytes xxh3 fragments maxBytes budget = .ok result) :
    ∃ n, List.Forall₂ (Cuts xxh3) ((pieces fragments).take n) (pieces result.fragments) := by
  simp only [limitBytes, bind_eq_ok, require_eq_ok, exists_const] at h
  obtain ⟨kept, hkept, n, hall⟩ := limitFragments_eq_ok (fun rest => (nil_append _).symm) h.2
  have hpieces := hkept []
  rw [append_nil, nil_append, pieces, append_nil] at hpieces
  exact ⟨n, by rwa [hpieces]⟩

/-! ## What is counted of a reply -/

def pieceFrames (part : Bytes) : List Frame := framing.records (part.drop headerSize)

theorem IsBatch.pieceFrames_eq {part : Bytes} {batch : BatchRef} (h : IsBatch xxh3 part batch) :
    pieceFrames part = batch.frames ∧
      part.length = headerSize + framesSize batch.frames := by
  have hblob : framesSize batch.frames = batch.blob.length := by
    rw [← (@records_flatMap_bytes batch.blob batch.frames fun f hf => hf).2.2,
      h.tiled.flatMap_frames]
  refine ⟨by rw [pieceFrames, ← h.blob_eq, BatchRef.frames], ?_⟩
  rw [hblob, h.blob_eq, length_drop, Nat.add_sub_of_le h.headerSize_le]

/-- A piece is a verified batch with a message in it. -/
def Sound (xxh3 : Bytes → UInt64) (part : Bytes) : Prop :=
  (∃ batch, IsBatch xxh3 part batch) ∧ pieceFrames part ≠ []

/-- A walk over `messages` messages in `bytes` bytes counts at most those, and all of them if it did
not hit the limit; only the bytes that are there hit it. -/
structure Counts (acc result : LimitedRead) (messages bytes : Nat) : Prop where
  count : result.messageCount ≤ acc.messageCount + messages
  hits : result.limited = true → acc.remaining ≤ bytes ∧ 0 < bytes
  whole : result.limited = false → result.messageCount = acc.messageCount + messages ∧
    result.fragments.flatten.length = acc.fragments.flatten.length + bytes ∧
    (bytes < acc.remaining ∨ bytes = 0)

theorem limitBatch_counts {next : LimitedRead} {body : Bytes}
    (hheader : decode source = .ok header)
    (hpart : source.length = headerSize ∨ body = source.drop headerSize)
    (hsound : Sound xxh3 (source.take headerSize ++ body))
    (h : limitBatch xxh3 ceiling acc header source body = .ok next) :
    let part := source.take headerSize ++ body
    Counts acc next (pieceFrames part).length part.length ∧
      next.done = next.limited ∧
      (next.limited = false → next.remaining + part.length = acc.remaining) := by
  intro part
  have hsource := (decode_eq_ok.mp hheader).1
  obtain ⟨⟨batch, hbatch⟩, hframes⟩ := hsound
  have hlength : part.length = _ := hbatch.pieceFrames_eq.2
  rw [← hbatch.pieceFrames_eq.1] at hlength
  have hpos : 0 < part.length := Nat.lt_of_lt_of_le (by decide) hbatch.headerSize_le
  have hrecords : pieceFrames part = framing.records body := by
    rw [pieceFrames, drop_left' (length_take_of_le hsource)]
  have hbody : part.length = headerSize + body.length := by
    rw [length_append, length_take_of_le hsource]
  change pieceFrames part ≠ [] at hframes
  change part.length = headerSize + framesSize (pieceFrames part) at hlength
  simp only [limitBatch, bind_eq_ok, require_eq_ok, exists_const] at h
  obtain ⟨-, taken, htaken, h⟩ := h
  rw [← hrecords] at htaken
  obtain ⟨chosen, post, hsplit, hselected, hstop, hall, hlimited⟩ :=
    @limitFrames_eq_ok header ceiling _ _ 0 _ _ _ rfl rfl htaken
  rw [Nat.zero_add] at hselected hstop hlimited
  have hle : chosen.length ≤ (pieceFrames part).length := by rw [hsplit, length_append]; omega
  have hstop_le : framesSize chosen ≤ framesSize (pieceFrames part) := by
    rw [hsplit, framesSize, framesSize, map_append, sum_append]
    omega
  split at h
  case isTrue hnone =>
    simp only [bind_eq_ok, require_eq_ok, exists_const, Except.ok.injEq] at h
    obtain ⟨hsome, rfl⟩ := h
    have hlim : taken.limited = true := by
      by_contra hunlim
      rw [hall (by simpa using hunlim), append_nil] at hsplit
      rw [hsplit] at hframes
      exact hframes (length_eq_zero_iff.mp (hselected.symm.trans hnone))
    have hover := hlimited hlim
    rw [if_neg fun hzero => hsome hzero.1] at hover
    exact ⟨⟨Nat.le_add_right .., fun _ => ⟨by omega, hpos⟩, by simp [hlim]⟩, hlim.symm,
      by simp [hlim]⟩
  case isFalse hsome =>
    cases h
    refine ⟨⟨by simpa only [hselected] using Nat.add_le_add_left hle _, fun hlim => ⟨?_, hpos⟩,
      fun hunlim => ?_⟩, rfl, fun hunlim => ?_⟩
    · simp only [Bool.or_eq_true, beq_iff_eq] at hlim
      obtain hlim | hzero := hlim
      · have hover := hlimited hlim
        rw [if_neg fun hzero => hsome hzero.2] at hover
        omega
      · omega
    all_goals
      simp only [Bool.or_eq_false_iff, beq_eq_false_iff_ne] at hunlim
      rw [hall hunlim.1, append_nil] at hsplit
      have hend : taken.stop = body.length := by rw [hstop, ← hsplit]; omega
    · refine ⟨by rw [hselected, hsplit], ?_, .inl (by omega)⟩
      rw [flatten_append, length_append, hend]
      congr 1
      split
      case isTrue hwhole =>
        rw [flatten_singleton, hbody, hpart.resolve_left hwhole.2, length_drop]
        omega
      case isFalse =>
        simp only [flatten_cons, flatten_nil, append_nil, length_append, take_length]
        rw [length_encode, hbody]
    · show acc.remaining - _ + _ = _
      omega

/-- **What a cut reply counts** is what its pieces hold. -/
theorem limitFragments_counts {fragments : List Bytes} {result : LimitedRead}
    (hgo : acc.limited = false) (hsound : ∀ part ∈ pieces fragments, Sound xxh3 part)
    (h : limitFragments xxh3 ceiling fragments acc = .ok result) :
    Counts acc result ((pieces fragments).map fun part => (pieceFrames part).length).sum
      (pieces fragments).flatten.length := by
  refine limitFragments_walk (motive := fun parts acc result => acc.limited = false →
    (∀ part ∈ parts, Sound xxh3 part) →
    Counts acc result (parts.map fun part => (pieceFrames part).length).sum parts.flatten.length)
    ?nil ?batch h hgo hsound
  case nil => exact fun acc hgo _ => ⟨le_rfl, by simp [hgo], fun _ => ⟨rfl, rfl, .inr rfl⟩⟩
  case batch =>
    intro source body header acc next result parts hheader hpart hbatch hrest hgo hsound
    obtain ⟨⟨hcount, hover, hwhole⟩, hdone, hleft⟩ :=
      limitBatch_counts hheader hpart (hsound _ mem_cons_self) hbatch
    rw [map_cons, sum_cons, flatten_cons, length_append]
    cases hnext : next.limited with
    | true =>
      obtain ⟨-, rfl⟩ := hrest.resolve_right fun h => by simp [hdone, hnext] at h
      have := hover hnext
      exact ⟨by omega, fun _ => by omega, by simp [hnext]⟩
    | false =>
      have hleft := hleft hnext
      have hwhole := hwhole hnext
      obtain ⟨-, ih⟩ := hrest.resolve_left fun h => by simp [hdone, hnext] at h
      obtain ⟨hcount', hover', hwhole'⟩ :=
        ih hnext fun part hp => hsound part (mem_cons_of_mem _ hp)
      refine ⟨by omega, fun hl => ?_, fun hl => ?_⟩
      · have := hover' hl
        omega
      · have := hwhole' hl
        omega

end Limit

end Iggy.Poll
