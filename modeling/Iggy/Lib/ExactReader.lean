import Iggy.Lib.Cursor

/-!
# Readers that accept exactly what a writer writes

A reader is exact for a writer when it takes a value off the front of a byte string just in case the
value is valid and stands there as the writer writes it: what is written is read back, and what is
accepted is written back to the same bytes. Exactness is kept by guards, by parsing and by counted
repetition, so a format is shown exact part by part.
-/

namespace Iggy.Lib

open List

variable {ε α β : Type}

abbrev Reader (ε α : Type) := Bytes → Except ε (α × Bytes)

/-- `read` accepts exactly the valid values, as `write` writes them. -/
def Exact (read : Reader ε α) (write : α → Bytes) (valid : α → Prop) : Prop :=
  ∀ bs a rest, read bs = .ok (a, rest) ↔ valid a ∧ bs = write a ++ rest

theorem leBytes_leNat (bs : Bytes) : leBytes bs.length (leNat bs) = bs := by
  induction bs with
  | nil => rfl
  | cons b bs ih =>
    have hb := b.toNat_lt
    have hmod : (b.toNat + 256 * leNat bs) % 256 = b.toNat := by omega
    have hdiv : (b.toNat + 256 * leNat bs) / 256 = leNat bs := by omega
    simp [leBytes, leNat, hmod, hdiv, ih]

theorem exact_takeBytes (short : ε) (n : Nat) :
    Exact (takeBytes short n) id fun bs => bs.length = n := by
  intro bs head rest
  constructor
  · intro h
    unfold takeBytes at h
    split at h
    · exact nomatch h
    · cases h
      exact ⟨length_take_of_le (by omega), (take_append_drop n bs).symm⟩
  · rintro ⟨hlen, rfl⟩
    exact takeBytes_append short hlen rest

theorem exact_takeNat (short : ε) (w : Nat) : Exact (takeNat short w) (leBytes w)
    (· < 256 ^ w) := by
  intro bs n rest
  constructor
  · intro h
    obtain ⟨⟨head, rest'⟩, htake, heq⟩ := map_eq_ok.mp h
    obtain ⟨hlen, rfl⟩ := (exact_takeBytes short w bs head rest').mp htake
    cases heq
    obtain rfl := hlen
    exact ⟨leNat_lt head, by rw [leBytes_leNat, id]⟩
  · rintro ⟨hn, rfl⟩
    exact takeNat_append short hn rest

def takeFields (short : ε) : List Nat → Reader ε (List Nat)
  | [], bs => .ok ([], bs)
  | w :: ws, bs => do
    let (n, bs) ← takeNat short w bs
    let (ns, bs) ← takeFields short ws bs
    return (n :: ns, bs)

theorem exact_takeFields (short : ε) (ws : List Nat) :
    Exact (takeFields short ws) (packFields ws) (FieldsFit ws) := by
  induction ws with
  | nil =>
    intro bs ns rest
    constructor
    · intro h
      cases h
      exact ⟨.nil, rfl⟩
    · rintro ⟨hfit, rfl⟩
      cases hfit
      rfl
  | cons w ws ih =>
    intro bs ns rest
    simp only [takeFields, bind_eq_ok, Prod.exists, exact_takeNat short w _ _ _, ih _ _ _]
    constructor
    · rintro ⟨n, bs, ⟨hn, rfl⟩, ns, bs, ⟨hfit, rfl⟩, h⟩
      cases h
      exact ⟨.cons hn hfit, by rw [packFields, append_assoc]⟩
    · rintro ⟨hfit, rfl⟩
      cases hfit with
      | @cons _ n _ ns hn hfit =>
        exact ⟨n, _, ⟨hn, by rw [packFields, append_assoc]⟩, ns, _, ⟨hfit, rfl⟩, rfl⟩

def Reader.parse (read : Reader ε α) (f : α → Except ε β) : Reader ε β := fun bs => do
  let (a, bs) ← read bs
  let b ← f a
  return (b, bs)

/-- Values in a row, in ascending order of their keys. -/
def readAscending (key : α → Nat) (unordered : α → ε) (read : Reader ε α) :
    Nat → Option Nat → Reader ε (List α)
  | 0, _, bs => .ok ([], bs)
  | n + 1, previous, bs => do
    let (a, bs) ← read bs
    require (∀ k ∈ previous, k < key a) (unordered a)
    let (as, bs) ← readAscending key unordered read n (some (key a)) bs
    return (a :: as, bs)

/-- The count is checked against a ceiling and against the bytes that are there. -/
def readCounted (key : α → Nat) (unordered : α → ε) (read : Reader ε α) (max size : Nat)
    (tooMany short : ε) (n : Nat) : Reader ε (List α) := fun bs => do
  require (n ≤ max) tooMany
  require (n * size ≤ bs.length) short
  readAscending key unordered read n none bs

/-- Valid values in ascending order of their keys, within a ceiling. -/
structure Run (key : α → Nat) (max : Nat) (valid : α → Prop) (as : List α) : Prop where
  count : as.length ≤ max
  valid : ∀ a ∈ as, valid a
  ascending : (as.map key).Pairwise (· < ·)

namespace Exact

variable {read : Reader ε α} {write : α → Bytes} {valid : α → Prop}

theorem congr (h : Exact read write valid) {write' : α → Bytes} {valid' : α → Prop}
    (hvalid : ∀ a, valid a ↔ valid' a) (hwrite : ∀ a, write a = write' a) :
    Exact read write' valid' := by
  intro bs a rest
  rw [h bs a rest, hvalid, hwrite]

theorem parse (h : Exact read write valid) {f : α → Except ε β} (unparse : β → α) (check : β → Prop)
    (hf : ∀ a b, f a = .ok b ↔ check b ∧ a = unparse b) :
    Exact (read.parse f) (write ∘ unparse) fun b => check b ∧ valid (unparse b) := by
  intro bs b rest
  simp only [Reader.parse, bind_eq_ok, Prod.exists, h _ _ _, hf]
  constructor
  · rintro ⟨a, bs, ⟨ha, rfl⟩, b, ⟨hb, rfl⟩, heq⟩
    cases heq
    exact ⟨⟨hb, ha⟩, rfl⟩
  · rintro ⟨⟨hb, ha⟩, rfl⟩
    exact ⟨_, _, ⟨ha, rfl⟩, b, ⟨hb, rfl⟩, rfl⟩

theorem readAscending (h : Exact read write valid) (key : α → Nat) (unordered : α → ε) (n : Nat)
    (previous : Option Nat) :
    Exact (readAscending key unordered read n previous) (·.flatMap write) fun as =>
      as.length = n ∧ (∀ a ∈ as, valid a) ∧ (previous.toList ++ as.map key).Pairwise (· < ·) := by
  induction n generalizing previous with
  | zero =>
    intro bs as rest
    constructor
    · intro h
      cases h
      exact ⟨⟨rfl, fun _ h => absurd h not_mem_nil, by cases previous <;> simp⟩, rfl⟩
    · rintro ⟨⟨hlen, -, -⟩, rfl⟩
      obtain rfl := eq_nil_of_length_eq_zero hlen
      rfl
  | succ n ih =>
    intro bs as rest
    simp only [Lib.readAscending, bind_eq_ok, Prod.exists, h _ _ _, require_eq_ok, ih _ _ _ _]
    constructor
    · rintro ⟨a, bs, ⟨ha, rfl⟩, -, hkey, as, bs, ⟨⟨hlen, hvalid, hsorted⟩, rfl⟩, heq⟩
      cases heq
      refine ⟨⟨by simp [hlen], by simpa using ⟨ha, hvalid⟩, ?_⟩, by simp⟩
      cases previous with
      | none => simpa using hsorted
      | some k =>
        have hk : k < key a := hkey k rfl
        simp only [Option.toList_some, singleton_append, map_cons, pairwise_cons,
          mem_cons, forall_eq_or_imp] at hsorted ⊢
        exact ⟨⟨hk, fun x hx => hk.trans (hsorted.1 x hx)⟩, hsorted⟩
    · rintro ⟨⟨hlen, hvalid, hsorted⟩, rfl⟩
      obtain _ | ⟨a, as⟩ := as
      · cases hlen
      rw [map_cons, pairwise_append] at hsorted
      refine ⟨a, _, ⟨hvalid a mem_cons_self, by simp⟩, (), ?_, as, _,
        ⟨⟨Nat.succ.inj hlen, fun x hx => hvalid x (mem_cons_of_mem _ hx), hsorted.2.1⟩, rfl⟩, rfl⟩
      intro k hk
      exact hsorted.2.2 k (by simpa using hk) (key a) mem_cons_self

theorem readCounted (h : Exact read write valid) (key : α → Nat) (unordered : α → ε) (max : Nat)
    {size : Nat} (tooMany short : ε) (n : Nat) (hsize : ∀ a, valid a → size ≤ (write a).length) :
    Exact (readCounted key unordered read max size tooMany short n) (·.flatMap write) fun as =>
      as.length = n ∧ Run key max valid as := by
  have hlen : ∀ as : List α, (∀ a ∈ as, valid a) → as.length * size ≤ (as.flatMap write).length := by
    intro as
    induction as with
    | nil => simp
    | cons a as ih =>
      intro hall
      have ha := hsize a (hall a mem_cons_self)
      have has := ih fun x hx => hall x (mem_cons_of_mem _ hx)
      rw [length_cons, flatMap_cons, length_append, Nat.succ_mul]
      omega
  intro bs as rest
  simp only [Lib.readCounted, bind_eq_ok, require_eq_ok, exists_const,
    h.readAscending key unordered n none bs as rest, Option.toList_none, nil_append]
  constructor
  · rintro ⟨hmax, -, ⟨rfl, hvalid, hsorted⟩, rfl⟩
    exact ⟨⟨rfl, hmax, hvalid, hsorted⟩, rfl⟩
  · rintro ⟨⟨rfl, hmax, hvalid, hsorted⟩, rfl⟩
    refine ⟨hmax, ?_, ⟨rfl, hvalid, hsorted⟩, rfl⟩
    rw [length_append]
    exact Nat.le_trans (hlen as hvalid) (Nat.le_add_right _ _)

end Exact

end Iggy.Lib
