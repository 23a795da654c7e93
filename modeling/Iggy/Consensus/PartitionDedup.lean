import Iggy.Consensus.ClientTable
import Mathlib.Order.Bounds.Basic

/-!
# Partition receipts: the committed window is exact

`ClientEntry.Reflects` relates a slice entry to the receipts committed for its client: the watermark
is the highest request, bit `i` of the window says whether `watermark - i` was committed, and the
one cached reply is the first committed for the watermark. Each accepted receipt extends the history
by one (`reflects_receiptEntry`), in whatever order and however often they come.
-/

namespace Iggy

open List ClientTable ClientEntry

namespace ClientEntry

/-- `e` is what committing `hist`, in that order, leaves for one user and session. -/
structure Reflects (e : ClientEntry) (userId session : Nat) (hist : List CachedReply) : Prop where
  user : e.userId = userId
  epoch : e.epoch = session
  watermark : IsGreatest { r | ∃ x ∈ hist, x.request = r } e.watermark
  window : ∀ i < committedWindowBits,
    (e.committedWindow.getLsbD i = true ↔ ∃ x ∈ hist, x.request + i = e.watermark)
  ring : ∃ first, e.ring = [first] ∧ hist.find? (fun x => x.request = e.watermark) = some first

variable {userId session : Nat} {hist : List CachedReply}

theorem Reflects.request_le {e : ClientEntry} (h : e.Reflects userId session hist) {x : CachedReply}
    (hx : x ∈ hist) : x.request ≤ e.watermark :=
  h.watermark.2 ⟨x, hx, rfl⟩

theorem Reflects.window_le {e : ClientEntry} (h : e.Reflects userId session hist) {r : Nat}
    (hle : r ≤ e.watermark) (hin : e.watermark - r < committedWindowBits) :
    e.committedWindow.getLsbD (e.watermark - r) = true ↔ ∃ x ∈ hist, x.request = r := by
  rw [h.window _ hin]
  constructor
  · rintro ⟨x, hx, heq⟩
    exact ⟨x, hx, by omega⟩
  · rintro ⟨x, hx, rfl⟩
    exact ⟨x, hx, by omega⟩

theorem exists_mem_append_singleton {reply : CachedReply} {p : CachedReply → Prop} :
    (∃ x ∈ hist ++ [reply], p x) ↔ (∃ x ∈ hist, p x) ∨ p reply := by
  simp [or_and_right, exists_or]

/-! ## The window under one more request -/

section Fold

variable {e : ClientEntry} {userId session : Nat} {hist : List CachedReply} {reply : CachedReply}

theorem getLsbD_one (i : Nat) : (1#128).getLsbD i = true ↔ i = 0 := by
  simp [BitVec.getLsbD_one]

theorem window_above (h : e.Reflects userId session hist) (hlt : e.watermark < reply.request)
    {i : Nat} (hi : i < committedWindowBits) :
    (e.foldRequest reply.request reply.commit).committedWindow.getLsbD i = true ↔
      ∃ x ∈ hist ++ [reply], x.request + i = reply.request := by
  have hi' : i < 128 := hi
  rw [exists_mem_append_singleton]
  unfold foldRequest
  simp only [hlt, ↓reduceIte]
  split_ifs with hgap
  · -- the gap is wider than the window: nothing older stays in it
    unfold committedWindowBits at hgap
    rw [getLsbD_one]
    constructor
    · rintro rfl
      exact .inr rfl
    · rintro (⟨x, hx, heq⟩ | heq)
      · have := h.request_le hx
        omega
      · omega
  · unfold committedWindowBits at hgap
    rw [BitVec.getLsbD_or, Bool.or_eq_true, getLsbD_one, BitVec.getLsbD_shiftLeft]
    simp only [Bool.and_eq_true, decide_eq_true_eq, Bool.not_eq_true', decide_eq_false_iff_not]
    constructor
    · rintro (⟨⟨-, hge⟩, hbit⟩ | rfl)
      · obtain ⟨x, hx, heq⟩ := (h.window _ (by unfold committedWindowBits; omega)).mp hbit
        exact .inl ⟨x, hx, by omega⟩
      · exact .inr rfl
    · rintro (⟨x, hx, heq⟩ | heq)
      · have := h.request_le hx
        refine .inl ⟨⟨hi', by omega⟩, ?_⟩
        exact (h.window _ (by unfold committedWindowBits; omega)).mpr ⟨x, hx, by omega⟩
      · exact .inr (by omega)

theorem window_below (h : e.Reflects userId session hist) (hle : reply.request ≤ e.watermark)
    {i : Nat} (hi : i < committedWindowBits) :
    (e.foldRequest reply.request reply.commit).committedWindow.getLsbD i = true ↔
      ∃ x ∈ hist ++ [reply], x.request + i = e.watermark := by
  have hi' : i < 128 := hi
  rw [exists_mem_append_singleton, ← h.window i hi]
  unfold foldRequest
  rw [if_neg (not_lt.mpr hle)]
  by_cases hin : e.watermark - reply.request < committedWindowBits
  swap
  · -- aged out: the receipt leaves no mark, and no bit of the window stands for it
    rw [if_neg fun hc => hin hc.1]
    unfold committedWindowBits at hin
    exact ⟨.inl, fun hor => hor.elim id fun heq => by omega⟩
  by_cases hbit : e.committedWindow.getLsbD (e.watermark - reply.request) = true
  · rw [if_neg fun hc => by rw [hbit] at hc; exact Bool.noConfusion hc.2]
    refine ⟨.inl, fun hor => hor.elim id fun heq => ?_⟩
    rwa [show i = e.watermark - reply.request by omega]
  · rw [Bool.not_eq_true] at hbit
    rw [if_pos ⟨hin, hbit⟩]
    simp only
    rw [BitVec.getLsbD_or, Bool.or_eq_true, BitVec.getLsbD_shiftLeft]
    simp only [Bool.and_eq_true, decide_eq_true_eq, Bool.not_eq_true', decide_eq_false_iff_not,
      getLsbD_one]
    constructor
    · rintro (hold | ⟨⟨-, hge⟩, hzero⟩)
      · exact .inl hold
      · exact .inr (by omega)
    · rintro (hold | heq)
      · exact .inl hold
      · exact .inr ⟨⟨hi', by omega⟩, by omega⟩

section

variable (e : ClientEntry) (request commitOp : Nat)

theorem watermark_foldRequest :
    (e.foldRequest request commitOp).watermark = max e.watermark request := by
  unfold foldRequest
  by_cases h : e.watermark < request
  · rw [if_pos h, max_eq_right h.le]
  · rw [if_neg h, max_eq_left (not_lt.mp h)]
    split_ifs <;> rfl

@[simp] theorem userId_foldRequest : (e.foldRequest request commitOp).userId = e.userId := by
  unfold foldRequest
  split_ifs <;> rfl

@[simp] theorem ring_foldRequest : (e.foldRequest request commitOp).ring = e.ring := by
  unfold foldRequest
  split_ifs <;> rfl

theorem retainReceipt_frame (session : Nat) (reply : CachedReply) :
    (e.retainReceipt session reply).1.userId = e.userId ∧
      (e.retainReceipt session reply).1.epoch = session ∧
      (e.retainReceipt session reply).1.watermark = e.watermark ∧
      (e.retainReceipt session reply).1.committedWindow = e.committedWindow := by
  unfold retainReceipt
  simp only
  split
  · exact ⟨rfl, rfl, rfl, rfl⟩
  · split
    · split_ifs <;> exact ⟨rfl, rfl, rfl, rfl⟩
    · exact ⟨rfl, rfl, rfl, rfl⟩

end

end Fold

/-! ## One receipt -/

section Receipt

variable {e : ClientEntry} {userId session : Nat} {hist : List CachedReply} {reply : CachedReply}

section

variable (h : e.Reflects userId session hist)
include h

theorem isGreatest_append :
    IsGreatest { r | ∃ x ∈ hist ++ [reply], x.request = r } (max e.watermark reply.request) := by
  constructor
  · rw [Set.mem_ofPred_eq, exists_mem_append_singleton]
    rcases le_total e.watermark reply.request with hle | hle
    · exact .inr (max_eq_right hle).symm
    · rw [max_eq_left hle]
      exact .inl h.watermark.1
  · intro r hr
    rw [Set.mem_ofPred_eq, exists_mem_append_singleton] at hr
    rcases hr with ⟨x, hx, rfl⟩ | rfl
    · exact (h.request_le hx).trans (le_max_left ..)
    · exact le_max_right ..

theorem ring_receipt : ∃ first, (receiptEntry session reply e).ring = [first] ∧
      (hist ++ [reply]).find? (fun x => x.request = max e.watermark reply.request) =
        some first := by
  obtain ⟨first, hring, hfirst⟩ := h.ring
  have hreq : first.request = e.watermark := by simpa using find?_some hfirst
  have hwm := watermark_foldRequest e reply.request reply.commit
  unfold receiptEntry retainReceipt findCached
  simp only [ring_foldRequest, hring, find?_singleton, hreq, getLast?_singleton]
  rcases lt_trichotomy reply.request e.watermark with hlt | heq | hgt
  · -- a lower request: the watermark's reply stays pinned
    refine ⟨first, ?_, ?_⟩
    · simp [hlt.ne', hwm, hlt]
    · rw [max_eq_left hlt.le, find?_append, hfirst]
      rfl
  · -- a repeat of the watermark: the first reply stays
    refine ⟨first, ?_, ?_⟩
    · simp [heq]
    · rw [heq, max_self, find?_append, hfirst]
      rfl
  · -- a new watermark: nothing before it has this request
    refine ⟨reply, ?_, ?_⟩
    · simp [hgt.ne, hwm, hgt.le]
    · have hnone : hist.find? (fun x => x.request = reply.request) = none := by
        rw [find?_eq_none]
        intro x hx
        have := h.request_le hx
        simp only [decide_eq_true_eq]
        omega
      rw [max_eq_right hgt.le, find?_append, hnone]
      simp

/-- **One receipt** extends the history the entry reflects by one. -/
theorem reflects_receiptEntry :
    (receiptEntry session reply e).Reflects userId session (hist ++ [reply]) := by
  obtain ⟨huser, hepoch, hwm, hwin⟩ :=
    retainReceipt_frame (e.foldRequest reply.request reply.commit) session reply
  have hmark : (receiptEntry session reply e).watermark =
      max e.watermark reply.request := hwm.trans (watermark_foldRequest ..)
  refine ⟨huser.trans ((userId_foldRequest ..).trans h.user), hepoch, ?_, fun i hi => ?_, ?_⟩ <;>
    rw [hmark]
  · exact isGreatest_append h
  · unfold receiptEntry
    rw [hwin]
    rcases Nat.lt_or_ge e.watermark reply.request with hlt | hle
    · rw [max_eq_right hlt.le]
      exact window_above h hlt hi
    · rw [max_eq_left hle]
      exact window_below h hle hi
  · exact ring_receipt h

end

theorem reflects_firstReceipt (userId session : Nat) (reply : CachedReply) :
    (firstReceipt userId session reply).Reflects userId session [reply] := by
  obtain ⟨huser, hepoch, hwm, hwin⟩ := retainReceipt_frame
    (watermarkOnly reply.client userId reply.request 1#128 reply.commit) session reply
  have hmark : (firstReceipt userId session reply).watermark = reply.request := hwm
  refine ⟨huser, hepoch, ?_, fun i hi => ?_, ?_⟩ <;> rw [hmark]
  · exact ⟨⟨reply, mem_singleton_self _, rfl⟩, by simp [upperBounds]⟩
  · unfold firstReceipt
    rw [hwin]
    simp only [watermarkOnly, BitVec.or_self, getLsbD_one, mem_singleton, exists_eq_left]
    omega
  · refine ⟨reply, ?_, by simp⟩
    simp [firstReceipt, retainReceipt, watermarkOnly, findCached]

end Receipt

/-- Up to order and repetition, the history fixes them. -/
theorem Reflects.window_unique {e₁ e₂ : ClientEntry} {hist₁ hist₂ : List CachedReply}
    (h₁ : e₁.Reflects userId session hist₁) (h₂ : e₂.Reflects userId session hist₂)
    (hperm : hist₁.Perm hist₂) :
    e₁.watermark = e₂.watermark ∧ e₁.committedWindow = e₂.committedWindow := by
  have hmem : ∀ p : CachedReply → Prop, (∃ x ∈ hist₁, p x) ↔ ∃ x ∈ hist₂, p x := fun p => by
    simp only [hperm.mem_iff]
  have hw : e₁.watermark = e₂.watermark := by
    refine h₁.watermark.unique ?_
    simp only [hmem]
    exact h₂.watermark
  refine ⟨hw, BitVec.eq_of_getLsbD_eq fun i hi => ?_⟩
  rw [Bool.eq_iff_iff, h₁.window i hi, h₂.window i hi, hmem, hw]

/-! ## What the window answers -/

section Answer

variable {e : ClientEntry} {userId session : Nat} {hist : List CachedReply} {request : Nat}

theorem checkSliceRequest_ne_new (h : e.Reflects userId session hist)
    (hx : ∃ x ∈ hist, x.request = request) : e.checkSliceRequest request ≠ .new := by
  have hle : request ≤ e.watermark := h.watermark.2 hx
  unfold checkSliceRequest
  rw [if_neg (not_lt.mpr hle)]
  by_cases hin : e.watermark - request < committedWindowBits
  · rw [if_neg (not_le.mpr hin), (h.window_le hle hin).mpr hx]
    simp
  · rw [if_pos (not_lt.mp hin)]
    simp

theorem checkSliceRequest_eq_new (h : e.Reflects userId session hist)
    (hx : ¬∃ x ∈ hist, x.request = request)
    (hnear : e.watermark < request + committedWindowBits) : e.checkSliceRequest request = .new := by
  unfold checkSliceRequest
  by_cases hlt : e.watermark < request
  · rw [if_pos hlt]
  · have hle : request ≤ e.watermark := not_lt.mp hlt
    have hin : e.watermark - request < committedWindowBits := by omega
    have hbit : e.committedWindow.getLsbD (e.watermark - request) = false := by
      rw [← Bool.not_eq_true, h.window_le hle hin]
      exact hx
    rw [if_neg hlt, if_neg (not_le.mpr hin), if_pos hbit]

theorem checkSliceRequest_eq_agedOut (hfar : request + committedWindowBits ≤ e.watermark) :
    e.checkSliceRequest request = .agedOut := by
  have hpos : 0 < committedWindowBits := by decide
  unfold checkSliceRequest
  rw [if_neg (by omega), if_pos (by omega)]

end Answer

end ClientEntry

/-! ## Runs of receipts -/

/-- The arguments of one `commit_partition_reply` call. -/
structure PartitionCommit where
  userId : Nat
  session : Nat
  reply : CachedReply

def PartitionCommit.wellFormed (c : PartitionCommit) : Bool :=
  c.reply.client ≠ 0 && c.session ≠ 0 && c.reply.commit ≠ 0 &&
    isPartitionReceiptOperation c.reply.operation

namespace ClientTable

variable (t : ClientTable)

/-- The table a call leaves, as it was if it refuses, and what it committed. -/
def commitCall (c : PartitionCommit) : ClientTable × List CachedReply :=
  match t.commitPartitionReply c.userId c.session c.reply with
  | .ok (t', _) => (t', [c.reply])
  | .error _ => (t, [])

def commitRun : ClientTable → List PartitionCommit → ClientTable × List CachedReply
  | t, [] => (t, [])
  | t, c :: calls =>
    let (t', committed) := t.commitCall c
    let (t'', rest) := commitRun t' calls
    (t'', committed ++ rest)

def Keeps (client userId session : Nat) (hist : List CachedReply) : Prop :=
  match t.find client with
  | none => hist = []
  | some e => e.Reflects userId session hist

inductive CallStep (t : ClientTable) (c : PartitionCommit) :
    ClientTable × List CachedReply → Prop
  | malformed (hbad : c.wellFormed = false) : CallStep t c (t, [])
  | fenced (e : ClientEntry) (hfind : t.find c.reply.client = some e)
      (hne : e.epoch ≠ c.session ∨ e.userId ≠ c.userId) : CallStep t c (t, [])
  | full (hfind : t.find c.reply.client = none) (hfull : t.clientsMax ≤ t.count) :
      CallStep t c (t, [])
  | fold (t' : ClientTable) (e : ClientEntry) (hok : c.wellFormed = true)
      (hfind : t.find c.reply.client = some e)
      (hself : t'.find c.reply.client = some (receiptEntry c.session c.reply e))
      (hother : ∀ k ≠ c.reply.client, t'.find k = t.find k) (hcount : t'.count = t.count)
      (hmax : t'.clientsMax = t.clientsMax) : CallStep t c (t', [c.reply])
  | first (t' : ClientTable) (hok : c.wellFormed = true) (hfind : t.find c.reply.client = none)
      (hself : t'.find c.reply.client = some (firstReceipt c.userId c.session c.reply))
      (hother : ∀ k ≠ c.reply.client, t'.find k = t.find k) (hcount : t'.count = t.count + 1)
      (hmax : t'.clientsMax = t.clientsMax) (hroom : t.count < t.clientsMax) :
      CallStep t c (t', [c.reply])

theorem commitCall_step (c : PartitionCommit) : CallStep t c (t.commitCall c) := by
  unfold commitCall commitPartitionReply
  by_cases hbad : c.reply.client = 0 ∨ c.session = 0 ∨ c.reply.commit = 0 ∨
      isPartitionReceiptOperation c.reply.operation = false
  · rw [if_pos hbad]
    refine .malformed ?_
    rcases hbad with h | h | h | h <;> simp [PartitionCommit.wellFormed, h]
  have hok : c.wellFormed = true := by
    simp only [not_or, Bool.not_eq_false] at hbad
    simp [PartitionCommit.wellFormed, hbad]
  rw [if_neg hbad]
  -- the match on the entry carries the equation that lets a new client be added
  split
  next t' _ heq =>
    split at heq
    next e hfind =>
      split_ifs at heq
      cases heq
      refine .fold _ e hok hfind ?_ (fun k hk => find_update_of_ne hk) count_update rfl
      rw [find_update_self, hfind]
      rfl
    next hfind =>
      split_ifs at heq with hfull
      cases heq
      refine .first _ hok hfind ?_ (fun k hk => ?_) count_add rfl (not_le.mp hfull)
      · rw [find_add, if_pos (clientId_firstReceipt ..)]
      · rw [find_add, clientId_firstReceipt, if_neg (Ne.symm hk)]
  next heq =>
    split at heq
    next e hfind =>
      split_ifs at heq with hepoch huser
      · exact .fenced e hfind (.inl hepoch)
      · exact .fenced e hfind (.inr huser)
    next hfind =>
      split_ifs at heq with hfull
      exact .full hfind hfull

section Run

variable {t : ClientTable} {client userId session : Nat} {hist : List CachedReply}

theorem Keeps.of_find {t' : ClientTable} (h : t.Keeps client userId session hist)
    (hfind : t'.find client = t.find client) : t'.Keeps client userId session hist := by
  rwa [Keeps, hfind]

variable {e : ClientEntry}

theorem Keeps.of_some (hfind : t.find client = some e) (h : e.Reflects userId session hist) :
    t.Keeps client userId session hist := by
  rwa [Keeps, hfind]

section

variable (h : t.Keeps client userId session hist)
include h

theorem Keeps.reflects (hfind : t.find client = some e) : e.Reflects userId session hist := by
  rwa [Keeps, hfind] at h

theorem Keeps.eq_nil (hfind : t.find client = none) : hist = [] := by
  rwa [Keeps, hfind] at h

def ofClient (client : Nat) (l : List CachedReply) : List CachedReply :=
  l.filter fun x => x.client = client

variable {c : PartitionCommit}

/-- **One call** keeps the relation for every client, with what it committed added. -/
theorem keeps_commitCall (hc : c.reply.client = client → c.userId = userId ∧ c.session = session) :
    (t.commitCall c).1.Keeps client userId session
      (hist ++ ofClient client (t.commitCall c).2) := by
  have step := commitCall_step t c
  generalize t.commitCall c = r at step ⊢
  by_cases hclient : c.reply.client = client
  · have hadd : ofClient client [c.reply] = [c.reply] := by simp [ofClient, hclient]
    obtain ⟨rfl, rfl⟩ := hc hclient
    subst hclient
    cases step with
    | malformed | fenced | full => simpa [ofClient] using h
    | fold t' e _ hfind hself _ _ _ =>
      rw [hadd]
      exact .of_some hself (reflects_receiptEntry (h.reflects hfind))
    | first t' _ hfind hself _ _ _ =>
      rw [hadd, h.eq_nil hfind]
      exact .of_some hself (reflects_firstReceipt _ _ _)
  · have hskip : ofClient client [c.reply] = [] := by simp [ofClient, hclient]
    cases step with
    | malformed | fenced | full => simpa [ofClient] using h
    | fold t' _ _ _ _ hother _ _ =>
      rw [hskip, append_nil]
      exact h.of_find (hother client (Ne.symm hclient))
    | first t' _ _ _ hother _ _ =>
      rw [hskip, append_nil]
      exact h.of_find (hother client (Ne.symm hclient))

variable {calls : List PartitionCommit}

/-- **A run of calls** keeps the relation. -/
theorem keeps_commitRun
    (hcalls : ∀ c ∈ calls, c.reply.client = client → c.userId = userId ∧ c.session = session) :
    (t.commitRun calls).1.Keeps client userId session
      (hist ++ ofClient client (t.commitRun calls).2) := by
  induction calls generalizing t hist with
  | nil => simpa [commitRun, ofClient] using h
  | cons c calls ih =>
    have hstep := keeps_commitCall h (hcalls c mem_cons_self)
    have hrest := ih hstep fun d hd => hcalls d (mem_cons_of_mem c hd)
    simpa [commitRun, ofClient] using hrest

end

def receiptsOf (client : Nat) (calls : List PartitionCommit) : List CachedReply :=
  (calls.filter fun c => c.reply.client = client && c.wellFormed).map (·.reply)

/-- The client is known, or the others of the run cannot take its last slot. -/
def Room (t : ClientTable) (client : Nat) (hist : List CachedReply)
    (calls : List PartitionCommit) : Prop :=
  hist ≠ [] ∨ t.count + (calls.filter fun c => c.reply.client ≠ client).length < t.clientsMax

theorem Room.commitCall_of_ne (h : t.Room client hist (c :: calls)) (hc : c.reply.client ≠ client) :
    (t.commitCall c).1.Room client hist calls := by
  refine h.imp id fun hlt => ?_
  have hcons : ((c :: calls).filter fun d => d.reply.client ≠ client).length =
      (calls.filter fun d => d.reply.client ≠ client).length + 1 := by simp [hc]
  have step := commitCall_step t c
  generalize t.commitCall c = r at step ⊢
  cases step with
  | malformed | fenced | full =>
    dsimp only
    omega
  | fold t' _ _ _ _ _ hcount hmax =>
    dsimp only
    omega
  | first t' _ _ _ _ hcount hmax =>
    dsimp only
    omega

theorem commitCall_of_room (h : t.Keeps client c.userId c.session hist)
    (hroom : t.Room client hist (c :: calls)) (hclient : c.reply.client = client) :
    (t.commitCall c).2 = (if c.wellFormed then [c.reply] else []) ∧
      (t.commitCall c).1.Room client (hist ++ (t.commitCall c).2) calls := by
  have step := commitCall_step t c
  generalize t.commitCall c = r at step ⊢
  subst hclient
  cases step with
  | malformed hbad => simpa [hbad, Room] using hroom
  | fenced e hfind hne =>
    have hr := h.reflects hfind
    exact absurd hne (by simp [hr.epoch, hr.user])
  | full hfind hfull =>
    rcases hroom with hne | hlt
    · exact absurd (h.eq_nil hfind) hne
    · omega
  | fold _ _ hok => simp [hok, Room]
  | first _ hok => simp [hok, Room]

theorem ofClient_commitRun (h : t.Keeps client userId session hist)
    (hcalls : ∀ c ∈ calls, c.reply.client = client → c.userId = userId ∧ c.session = session)
    (hroom : t.Room client hist calls) :
    ofClient client (t.commitRun calls).2 = receiptsOf client calls := by
  induction calls generalizing t hist with
  | nil => rfl
  | cons c calls ih =>
    have hc := hcalls c mem_cons_self
    have hstep := keeps_commitCall h hc
    have hrest := fun d hd => hcalls d (mem_cons_of_mem c hd)
    have hrun : ofClient client (t.commitRun (c :: calls)).2 = ofClient client (t.commitCall c).2 ++
        ofClient client ((t.commitCall c).1.commitRun calls).2 := by simp [commitRun, ofClient]
    rw [hrun]
    by_cases hclient : c.reply.client = client
    · obtain ⟨rfl, rfl⟩ := hc hclient
      obtain ⟨hcommit, hroom'⟩ := commitCall_of_room h hroom hclient
      have hself : ofClient client (t.commitCall c).2 = (t.commitCall c).2 := by
        rw [hcommit]
        split_ifs <;> simp [ofClient, hclient]
      rw [hself] at hstep ⊢
      rw [ih hstep hrest hroom', hcommit]
      cases hw : c.wellFormed <;> simp [receiptsOf, hclient, hw]
    · have hnone : ofClient client (t.commitCall c).2 = [] := by
        have step := commitCall_step t c
        generalize t.commitCall c = r at step ⊢
        cases step <;> simp [ofClient, hclient]
      rw [hnone] at hstep ⊢
      rw [append_nil] at hstep
      rw [ih hstep hrest (hroom.commitCall_of_ne hclient)]
      simp [receiptsOf, hclient]

/-! ## The dedup window -/

theorem checkPartitionRequest_of_reflects (hfind : t.find client = some e)
    (h : e.Reflects userId session hist) (request : Nat) (operation : Operation) :
    ((∃ x ∈ hist, x.request = request) →
        t.checkPartitionRequest client userId session request operation ≠ .new) ∧
      ((¬∃ x ∈ hist, x.request = request) → e.watermark < request + committedWindowBits →
        t.checkPartitionRequest client userId session request operation = .new) ∧
      (request + committedWindowBits ≤ e.watermark →
        t.checkPartitionRequest client userId session request operation =
          .alreadyApplied request e.watermark) := by
  have hmine : ¬(e.userId ≠ userId ∨ e.epoch ≠ session) := by simp [h.user, h.epoch]
  unfold checkPartitionRequest
  simp only [hfind, if_neg hmine]
  refine ⟨fun hx => ?_, fun hx hnear => ?_, fun hfar => ?_⟩
  · cases hs : e.checkSliceRequest request with
    | new => exact absurd hs (checkSliceRequest_ne_new h hx)
    | committed =>
      cases e.findCached request with
      | none => simp
      | some reply =>
        simp only
        split_ifs <;> simp
    | agedOut => simp
  · rw [checkSliceRequest_eq_new h hx hnear]
  · rw [checkSliceRequest_eq_agedOut hfar]

/-- **Partition dedup is exact.** Take any run of receipts in which those of `client` carry one
user and one session; the other clients' receipts are arbitrary. With `committed` the receipts
of `client` that committed before the run and in it:

* as long as there is room for the client, every well-formed receipt commits;
* the watermark is the highest committed request `W`, bit `i` of the window says whether
  `W - i` was committed, and the one cached reply is the first committed for `W`;
* a committed request is never `New`, one never committed is `New` above `W` and up to 127
  below it, and 128 or more below `W` every request answers `AlreadyApplied`;
* another order of the same calls leaves the same watermark and window. -/
theorem partition_window_exact (t : ClientTable) (client userId session : Nat)
    (hist : List CachedReply) (calls : List PartitionCommit)
    (hkeeps : t.Keeps client userId session hist)
    (hcalls : ∀ c ∈ calls, c.reply.client = client → c.userId = userId ∧ c.session = session) :
    let t' := (t.commitRun calls).1
    let committed := hist ++ ofClient client (t.commitRun calls).2
    (t.Room client hist calls → committed = hist ++ receiptsOf client calls) ∧
    (committed = [] → t'.find client = none ∧ ∀ request operation,
      t'.checkPartitionRequest client userId session request operation = .new) ∧
    (committed ≠ [] → ∃ e, t'.find client = some e ∧
      IsGreatest { r | ∃ x ∈ committed, x.request = r } e.watermark ∧
      (∀ i < committedWindowBits, (e.committedWindow.getLsbD i = true ↔
        ∃ x ∈ committed, x.request + i = e.watermark)) ∧
      (∃ first, e.ring = [first] ∧
        committed.find? (fun x => x.request = e.watermark) = some first) ∧
      ∀ request operation,
        ((∃ x ∈ committed, x.request = request) →
          t'.checkPartitionRequest client userId session request operation ≠ .new) ∧
        ((¬∃ x ∈ committed, x.request = request) → e.watermark < request + committedWindowBits →
          t'.checkPartitionRequest client userId session request operation = .new) ∧
        (request + committedWindowBits ≤ e.watermark →
          t'.checkPartitionRequest client userId session request operation =
            .alreadyApplied request e.watermark)) ∧
    (∀ calls₂, calls₂.Perm calls → t.Room client hist calls → ∀ e e₂,
      t'.find client = some e → (t.commitRun calls₂).1.find client = some e₂ →
        e.watermark = e₂.watermark ∧ e.committedWindow = e₂.committedWindow) := by
  have hend := keeps_commitRun hkeeps hcalls
  refine ⟨fun hroom => by rw [ofClient_commitRun hkeeps hcalls hroom], fun hnil => ?_,
    fun hne => ?_, fun calls₂ hperm hroom e e₂ he he₂ => ?_⟩
  · cases hfind : (t.commitRun calls).1.find client with
    | none => exact ⟨rfl, fun _ _ => by simp only [checkPartitionRequest, hfind]⟩
    | some e =>
      obtain ⟨x, hx, -⟩ := (hend.reflects hfind).watermark.1
      rw [hnil] at hx
      cases hx
  · cases hfind : (t.commitRun calls).1.find client with
    | none => exact absurd (hend.eq_nil hfind) hne
    | some e =>
      have hr := hend.reflects hfind
      exact ⟨e, rfl, hr.watermark, hr.window, hr.ring, checkPartitionRequest_of_reflects hfind hr⟩
  · have hcalls₂ := fun c hc => hcalls c (hperm.mem_iff.mp hc)
    have hroom₂ : t.Room client hist calls₂ :=
      hroom.imp id fun hlt => by rwa [(hperm.filter _).length_eq]
    have hend₂ := keeps_commitRun hkeeps hcalls₂
    refine (hend.reflects he).window_unique (hend₂.reflects he₂) ?_
    rw [ofClient_commitRun hkeeps hcalls hroom, ofClient_commitRun hkeeps hcalls₂ hroom₂]
    exact ((hperm.filter _).map _).symm.append_left hist

end Run

/-- Two clients send out of order into an empty table: client 9's window has requests 3 and 1. -/
theorem partition_window_exact_out_of_order :
    let t : ClientTable := ⟨⟨[], nodup_nil⟩, 2, .partitionSlice⟩
    let reply := fun client request commit : Nat =>
      (⟨client, request, commit, .sendMessages, [], {}⟩ : CachedReply)
    let calls : List PartitionCommit :=
      [⟨1, 4, reply 9 3 1⟩, ⟨2, 5, reply 8 7 2⟩, ⟨1, 4, reply 9 1 3⟩]
    ∃ e, (t.commitRun calls).1.find 9 = some e ∧
      IsGreatest { r | ∃ x ∈ [reply 9 3 1, reply 9 1 3], x.request = r } e.watermark := by
  intro t reply calls
  have hrun := partition_window_exact t 9 1 4 [] calls rfl (by decide)
  obtain ⟨hroom, -, hwin, -⟩ := hrun
  have hcommitted := hroom (.inr (by decide))
  obtain ⟨e, hfind, hmark, -⟩ := hwin (by rw [hcommitted]; decide)
  rw [hcommitted] at hmark
  exact ⟨e, hfind, hmark⟩

end ClientTable

end Iggy
