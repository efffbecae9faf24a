/-
# Decimal numbers in text

Numbers are printed by `Nat.toDigits 10`, as `std::to_string` prints them.  `front` reads
the number that a text starts with, up to the first character that is no digit: it is the
number that was printed, whatever zeros stand before it (`front_zeros_toDigits`), so text
that starts with differently padded numbers still tells them apart.

`stoi` is the `std::stoi` of C++: white space and a sign are skipped, what follows the
number is ignored, and a number outside `int` is an exception.  A natural number that was
printed is read back exactly when it is an `int` (`stoi_toString`).
-/

import Mathlib.Algebra.Ring.Int.Defs
import Mathlib.Algebra.Ring.Nat
import Mathlib.Data.Nat.Log
import Mathlib.Data.List.TakeWhile

namespace Decimal

/-- The digits that a text starts with. -/
def digits (cs : List Char) : List Char := cs.takeWhile Char.isDigit

/-- The number that a text starts with. -/
def front (cs : List Char) : ℕ := Nat.ofDigitChars 10 (digits cs) 0

variable {n k : ℕ} {cs ds : List Char}

/-- The digits of a number are digits. -/
theorem isDigit_of_mem_toDigits {c : Char} (h : c ∈ Nat.toDigits 10 n) : c.isDigit :=
  Nat.isDigit_of_mem_toDigits (by omega) (by omega) h

/-- The digits of a padded number are digits. -/
theorem isDigit_of_mem_zeros_toDigits {c : Char}
    (h : c ∈ List.replicate k '0' ++ Nat.toDigits 10 n) : c.isDigit := by
  rcases List.mem_append.1 h with h | h
  · rw [(List.mem_replicate.1 h).2]
    rfl
  · exact isDigit_of_mem_toDigits h

/-- Text that does not go on with a digit ends the digits before it. -/
theorem digits_append (hds : ∀ c ∈ ds, c.isDigit) (hcs : digits cs = []) :
    digits (ds ++ cs) = ds := by
  unfold digits at *
  rw [List.takeWhile_append_of_pos hds, hcs, List.append_nil]

/-- **Zeros before a number do not change it.** -/
theorem ofDigitChars_zeros_toDigits (k n : ℕ) :
    Nat.ofDigitChars 10 (List.replicate k '0' ++ Nat.toDigits 10 n) 0 = n := by
  rw [Nat.ofDigitChars_append, Nat.ofDigitChars_replicate_zero, Nat.mul_zero,
    Nat.ofDigitChars_ten_toDigits]

/-- **A padded number is read back,** up to text that does not go on with a digit. -/
theorem front_zeros_toDigits (k n : ℕ) (hcs : digits cs = []) :
    front (List.replicate k '0' ++ Nat.toDigits 10 n ++ cs) = n := by
  unfold front
  rw [digits_append (fun _ => isDigit_of_mem_zeros_toDigits) hcs, ofDigitChars_zeros_toDigits]

/-- **How many digits a number has.** -/
theorem length_toDigits (hn : 0 < n) : (Nat.toDigits 10 n).length = Nat.log 10 n + 1 := by
  have hle : (Nat.toDigits 10 n).length ≤ Nat.log 10 n + 1 :=
    (Nat.length_toDigits_le_iff (by omega) (by omega)).2 (Nat.lt_pow_succ_log_self (by omega) n)
  have hlt : Nat.log 10 n < (Nat.toDigits 10 n).length := by
    rcases Nat.eq_zero_or_pos (Nat.log 10 n) with hlog | hlog
    · rw [hlog]
      exact Nat.length_toDigits_pos
    · by_contra hcon
      have hsmall := (Nat.length_toDigits_le_iff (by omega) hlog).1 (not_lt.1 hcon)
      have hbig := Nat.pow_log_le_self 10 (by omega : n ≠ 0)
      omega
  omega

/-! ### `std::stoi` -/

/-- What `std::stoi` throws. -/
inductive StoiError
  | invalidArgument
  | outOfRange
deriving DecidableEq, Repr

/-- `isspace` in the C locale. -/
def isSpace (c : Char) : Bool := c = ' ' || (9 ≤ c.toNat && c.toNat ≤ 13)

/-- A sign in front, and whether it is a minus. -/
def sign : List Char → Bool × List Char
  | '-' :: cs => (true, cs)
  | '+' :: cs => (false, cs)
  | cs => (false, cs)

/-- `std::stoi`. -/
def stoi (s : String) : Except StoiError ℤ :=
  let (minus, cs) := sign (s.toList.dropWhile isSpace)
  let value : ℤ := if minus then -(front cs) else front cs
  if digits cs = [] then .error .invalidArgument
  else if value < -2 ^ 31 ∨ 2 ^ 31 ≤ value then .error .outOfRange
  else .ok value

/-- Text that starts with a digit has no white space and no sign in front. -/
theorem sign_dropWhile_of_isDigit {c : Char} (hc : c.isDigit) (cs : List Char) :
    sign ((c :: cs).dropWhile isSpace) = (false, c :: cs) := by
  have hlo : 48 ≤ c.toNat := (Char.isDigit_iff_toNat.1 hc).1
  have hspace : isSpace c = false := by
    unfold isSpace
    have hne : c ≠ ' ' := by
      rintro rfl
      exact absurd hlo (by decide)
    simp [hne]
    omega
  rw [List.dropWhile_cons_of_neg (by simp [hspace])]
  unfold sign
  split
  · rename_i h
    rw [(List.cons.inj h).1] at hlo
    exact absurd hlo (by decide)
  · rename_i h
    rw [(List.cons.inj h).1] at hlo
    exact absurd hlo (by decide)
  · rfl

/-- **A natural number that was printed is read back exactly when it is an `int`.** -/
theorem stoi_toString (n : ℕ) :
    stoi (toString n) = if n < 2 ^ 31 then .ok (n : ℤ) else .error .outOfRange := by
  have hlist : (toString n).toList = Nat.toDigits 10 n := Nat.toList_repr
  obtain ⟨c, cs, hcs⟩ := List.exists_cons_of_ne_nil (Nat.toDigits_ne_nil (n := n) (b := 10))
  have hdigits : digits (c :: cs) = c :: cs := by
    have h := digits_append (fun _ => isDigit_of_mem_toDigits (n := n)) (rfl : digits [] = [])
    rwa [List.append_nil, hcs] at h
  have hfront : front (c :: cs) = n := by
    unfold front
    rw [hdigits, ← hcs, Nat.ofDigitChars_ten_toDigits]
  have hsign := sign_dropWhile_of_isDigit
    (isDigit_of_mem_toDigits (n := n) (by rw [hcs]; exact List.mem_cons_self)) cs
  unfold stoi
  rw [hlist, hcs, hsign]
  simp only [hdigits, hfront, Bool.false_eq_true, if_false, List.cons_ne_nil]
  split_ifs <;> first | rfl | omega

end Decimal
