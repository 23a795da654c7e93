import Iggy.Lib.Bytes
import Iggy.Lib.Except

/-!
# Reading a byte string from the front

A cursor hands out the next bytes and keeps the rest. The round trip of a sequential format is a
chain of the rewrites `takeBytes_append` and `takeNat_append`.
-/

namespace Iggy.Lib

variable {ε : Type}

def takeBytes (short : ε) (n : Nat) (bytes : Bytes) : Except ε (Bytes × Bytes) :=
  if bytes.length < n then .error short else .ok (bytes.take n, bytes.drop n)

def takeNat (short : ε) (w : Nat) (bytes : Bytes) : Except ε (Nat × Bytes) :=
  (takeBytes short w bytes).map fun (head, rest) => (leNat head, rest)

theorem takeBytes_append (short : ε) {n : Nat} {head : Bytes} (h : head.length = n)
    (rest : Bytes) : takeBytes short n (head ++ rest) = .ok (head, rest) := by
  rw [takeBytes, if_neg (by rw [List.length_append]; omega), List.take_left' h, List.drop_left' h]

theorem takeNat_append (short : ε) {w n : Nat} (h : n < 256 ^ w) (rest : Bytes) :
    takeNat short w (leBytes w n ++ rest) = .ok (n, rest) := by
  rw [takeNat, takeBytes_append short (length_leBytes w n)]
  exact congrArg (fun x => Except.ok (x, rest)) (leNat_leBytes w n h)

theorem eq_of_leBytes_append {w m n : Nat} (hm : m < 256 ^ w) (hn : n < 256 ^ w)
    {rest rest' : Bytes} (h : leBytes w m ++ rest = leBytes w n ++ rest') : m = n := by
  have hhead := (List.append_inj h (by simp)).1
  rw [← leNat_leBytes w m hm, hhead, leNat_leBytes w n hn]

end Iggy.Lib
