import Mathlib.Data.List.Infix
import Mathlib.Data.List.TakeWhile
import AesdChar.Base.CInt

/-!
# User buffers and C strings

A `Buffer` is a heap allocation that was zeroed: the bytes written so far, and zeros behind them up
to its size. `cstring` is what the string functions see, up to the first NUL; without a NUL inside
the allocation they have no meaning. `strstr` and the `%d` conversion of `sscanf` follow the C
library.
-/

namespace CString
open CInt

/-- A zeroed allocation of `size` bytes that was written in front. -/
structure Buffer where
  size : ℕ
  bytes : List UInt8
  length_le : bytes.length ≤ size

namespace Buffer

/-- A fresh allocation after `memset`. -/
def zeroed (size : ℕ) : Buffer := ⟨size, [], Nat.zero_le _⟩

variable (b : Buffer)

/-- The first `n` bytes, when they lie inside. -/
def front (n : ℕ) : Option (List UInt8) :=
  if n ≤ b.size then some (b.bytes.take n ++ List.replicate (n - b.bytes.length) 0) else none

/-- Write at an offset, when that lies inside. -/
def put (off : ℤ) (xs : List UInt8) : Option Buffer :=
  if h : 0 ≤ off ∧ off.toNat + xs.length ≤ b.size then
    some
      { size := b.size
        bytes := b.bytes.take off.toNat ++ List.replicate (off.toNat - b.bytes.length) 0 ++ xs ++
          b.bytes.drop (off.toNat + xs.length)
        length_le := by
          have := b.length_le
          simp only [List.length_append, List.length_take, List.length_replicate, List.length_drop]
          omega }
  else none

/-- Let the allocation grow by `tail`, bytes that nobody has set. -/
def grow (tail : List UInt8) : Buffer where
  size := b.size + tail.length
  bytes := b.bytes ++ List.replicate (b.size - b.bytes.length) 0 ++ tail
  length_le := by
    have := b.length_le
    simp only [List.length_append, List.length_replicate]
    omega

/-- The string that starts at the buffer, when a NUL inside the allocation ends it. -/
def cstring : Option (List UInt8) :=
  if b.bytes.length < b.size ∨ 0 ∈ b.bytes then some (b.bytes.takeWhile (· != 0)) else none

/-- What `send` can have taken when it is told of more bytes than there are: the buffer, and behind it
what happens to be in memory. One call moves something, and less than 2 GiB. -/
def Overrun (sent : List UInt8) : Prop :=
  b.front (min sent.length b.size) = some (sent.take b.size) ∧ 0 < sent.length ∧ sent.length < 2 ^ 31

instance (sent : List UInt8) : Decidable (b.Overrun sent) := inferInstanceAs (Decidable (_ ∧ _))

variable {b} {xs : List UInt8}

theorem front_length : b.front b.bytes.length = some b.bytes := by
  simp [front, b.length_le]

theorem put_at_end (h : b.bytes.length + xs.length ≤ b.size) :
    ∃ b', b.put b.bytes.length xs = some b' ∧ b'.size = b.size ∧ b'.bytes = b.bytes ++ xs := by
  refine ⟨_, dif_pos ⟨Int.natCast_nonneg _, by simpa using h⟩, rfl, ?_⟩
  simp

theorem put_front {b' : Buffer} (h : b.put 0 xs = some b') :
    b'.size = b.size ∧ b'.bytes = xs ++ b.bytes.drop xs.length := by
  obtain ⟨hin, heq⟩ := Option.dite_none_right_eq_some.1 h
  rw [← Option.some.inj heq]
  simp

theorem front_of_put {b' : Buffer} (h : b.put 0 xs = some b') : b'.front xs.length = some xs := by
  obtain ⟨hsize, hbytes⟩ := put_front h
  obtain ⟨hin, -⟩ := Option.dite_none_right_eq_some.1 h
  have hlen : xs.length ≤ b'.size := by
    rw [hsize]
    simpa using hin
  unfold front
  rw [if_pos hlen, hbytes, List.take_left, List.length_append, Nat.sub_eq_zero_of_le (by omega)]
  simp

theorem cstring_of_room (hroom : b.bytes.length < b.size) :
    b.cstring = some (b.bytes.takeWhile (· != 0)) := if_pos (Or.inl hroom)

theorem cstring_eq (hroom : b.bytes.length < b.size) (hnul : 0 ∉ b.bytes) :
    b.cstring = some b.bytes := by
  have hall : b.bytes.takeWhile (· != 0) = b.bytes := by
    rw [List.takeWhile_eq_self_iff]
    intro x hx
    have hne : x ≠ 0 := fun hzero => hnul (hzero ▸ hx)
    simpa using hne
  rw [cstring, if_pos (Or.inl hroom), hall]

end Buffer

/-- `strstr`: the rest of the string from the first occurrence on. -/
def strstr (needle : List UInt8) : List UInt8 → Option (List UInt8)
  | [] => if needle.isPrefixOf [] then some [] else none
  | x :: xs => if needle.isPrefixOf (x :: xs) then some (x :: xs) else strstr needle xs

theorem strstr_eq_none_iff {needle xs : List UInt8} : strstr needle xs = none ↔ ¬ needle <:+: xs := by
  induction xs with
  | nil => simp [strstr]
  | cons x xs ih =>
    rw [strstr, List.infix_cons_iff]
    by_cases h : needle <+: x :: xs
    · simp [h]
    · simp [h, ih]

def isspace (x : UInt8) : Bool := x == 32 || (9 ≤ x && x ≤ 13)

def isdigit (x : UInt8) : Bool := 48 ≤ x && x ≤ 57

/-- The `%d` conversion: white space, a sign, digits. The number saturates at 64 bits as `strtol`
does; with it comes the rest of the input. -/
def scanInt (s : List UInt8) : Option (ℤ × List UInt8) :=
  let s := s.dropWhile isspace
  let negative := s.head? = some 45
  let s := if s.head? = some 43 ∨ s.head? = some 45 then s.tail else s
  let digits := s.takeWhile isdigit
  if digits = [] then none
  else
    let n : ℕ := digits.foldl (fun n x => 10 * n + (x.toNat - 48)) 0
    some (if negative then max (-n) (-2 ^ 63) else min n (2 ^ 63 - 1), s.drop digits.length)

/-- The number that decimal digits stand for. -/
def digitsValue (xs : List UInt8) : ℕ := xs.foldl (fun n x => 10 * n + (x.toNat - 48)) 0

/-- Reading a number that has no sign and nothing in front of it. -/
theorem scanInt_digits {xs rest : List UInt8} (hne : xs ≠ []) (hdigits : ∀ x ∈ xs, isdigit x = true)
    (hrest : ∀ x ∈ rest.head?, isdigit x = false) :
    scanInt (xs ++ rest) = some (min (digitsValue xs : ℤ) (2 ^ 63 - 1), rest) := by
  obtain ⟨d, ds, rfl⟩ := List.exists_cons_of_ne_nil hne
  have hd : 48 ≤ d ∧ d ≤ 57 := by simpa [isdigit] using hdigits d (by simp)
  have hspace : isspace d = false := by
    simp only [isspace, Bool.or_eq_false_iff, beq_eq_false_iff_ne, Bool.and_eq_false_iff,
      decide_eq_false_iff_not, UInt8.not_le]
    constructor
    · rintro rfl
      exact absurd hd (by decide)
    · right
      have hlo := UInt8.le_iff_toNat_le.1 hd.1
      rw [UInt8.lt_iff_toNat_lt]
      exact lt_of_lt_of_le (by decide) hlo
  have hsign : ∀ c : UInt8, c < 48 → some d ≠ some c := by
    intro c hc h
    obtain rfl := Option.some.inj h
    exact absurd hd.1 (UInt8.not_le.2 hc)
  have hplus := hsign 43 (by decide)
  have hminus := hsign 45 (by decide)
  have hdrop : (d :: (ds ++ rest)).dropWhile isspace = d :: (ds ++ rest) := by
    rw [List.dropWhile_cons, hspace]
    rfl
  have htake : (d :: ds ++ rest).takeWhile isdigit = d :: ds := by
    rw [List.takeWhile_append_of_pos hdigits]
    cases rest with
    | nil => rw [List.takeWhile_nil, List.append_nil]
    | cons x rest => rw [List.takeWhile_cons, hrest x rfl, if_neg (by decide), List.append_nil]
  rw [List.cons_append] at htake
  unfold scanInt
  simp only [List.cons_append, hdrop, List.head?_cons, hplus, hminus, or_self, if_false, htake,
    reduceCtorEq]
  rw [← List.cons_append, List.drop_left]
  rfl

theorem strstr_of_front {needle : List UInt8} (hne : needle ≠ []) (rest : List UInt8) :
    strstr needle (needle ++ rest) = some (needle ++ rest) := by
  obtain ⟨x, xs, rfl⟩ := List.exists_cons_of_ne_nil hne
  have hfront : (x :: xs).isPrefixOf (x :: (xs ++ rest)) = true := by
    rw [List.isPrefixOf_iff_prefix]
    exact List.prefix_append _ _
  rw [List.cons_append, strstr, if_pos hfront]

end CString
