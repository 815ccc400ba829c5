import DdsBenchmark.CLib.Text
import Mathlib.Data.Nat.Digits.Defs

/-! Conversions that `sscanf` chains: a literal text, a signed number, and what is left behind
each. A number printed in decimal is converted back, up to the width it is stored in. -/

namespace DdsBenchmark.CLib

/-- A literal piece of the format, without blanks in it. -/
def scanText (text s : List Char) : Option (List Char) :=
  if text <+: s then some (s.drop text.length) else none

/-- `strtol` on a text that has a number: a `long` stops at its limits. -/
def strtol (neg : Bool) (digits : List Char) : ℤ :=
  max (-2 ^ 63) (min (if neg then -(decimal digits : ℤ) else decimal digits) (2 ^ 63 - 1))

/-- `%ld`, with the text behind the number. -/
def scanLong (s : List Char) : Option (ℤ × List Char) :=
  let (neg, s) := sign (s.dropWhile isspace)
  let digits := s.takeWhile Char.isDigit
  if digits = [] then none else some (strtol neg digits, s.dropWhile Char.isDigit)

/-- `%d`: the `long` cut down to an `int`. -/
def scanInt (s : List Char) : Option (ℤ × List Char) :=
  (scanLong s).map fun r => (r.1.bmod (2 ^ 32), r.2)

@[simp] theorem scanText_append (text s : List Char) : scanText text (text ++ s) = some s := by
  rw [scanText, if_pos (List.prefix_append text s), List.drop_left]

theorem decimal_toDigits (n : ℕ) : decimal (Nat.toDigits 10 n) = n :=
  Nat.ofDigitChars_ten_toDigits

theorem isDigit_of_mem_toDigits {n : ℕ} {c : Char} (h : c ∈ Nat.toDigits 10 n) : c.isDigit :=
  Nat.isDigit_of_mem_toDigits (by norm_num) le_rfl h

/-- A printed number that fits, with a text behind it that does not go on with a digit. -/
theorem scanLong_toDigits {n : ℕ} (hn : n < 2 ^ 63) {s : List Char}
    (hs : ∀ c ∈ s.head?, c.isDigit = false) :
    scanLong (Nat.toDigits 10 n ++ s) = some ((n : ℤ), s) := by
  have hdigits : ∀ c ∈ Nat.toDigits 10 n, c.isDigit := fun c => isDigit_of_mem_toDigits
  have hvalue := decimal_toDigits n
  obtain ⟨d, ds, hd⟩ := List.exists_cons_of_ne_nil (Nat.toDigits_ne_nil (n := n) (b := 10))
  rw [hd] at hdigits hvalue ⊢
  have hdigit : d.isDigit := hdigits d List.mem_cons_self
  have hdrop : (d :: ds ++ s).dropWhile isspace = d :: (ds ++ s) := by
    rw [List.cons_append, List.dropWhile_cons, not_isspace_of_isDigit hdigit]
    rfl
  have htake : (d :: (ds ++ s)).takeWhile Char.isDigit = d :: ds := by
    rw [← List.cons_append, takeWhile_isDigit_append hs]
    exact List.takeWhile_eq_self_iff.mpr hdigits
  have hrest : (d :: (ds ++ s)).dropWhile Char.isDigit = s := by
    rw [← List.cons_append, List.dropWhile_append_of_pos hdigits]
    cases s with
    | nil => rfl
    | cons c s => rw [List.dropWhile_cons, hs c rfl]; rfl
  unfold scanLong
  simp only [hdrop, sign_of_isDigit hdigit, htake, hrest]
  rw [if_neg (List.cons_ne_nil d ds), strtol, if_neg Bool.false_ne_true, hvalue,
    min_eq_left (by omega), max_eq_right (by omega)]

theorem scanInt_toDigits {n : ℕ} (hn : n < 2 ^ 31) {s : List Char}
    (hs : ∀ c ∈ s.head?, c.isDigit = false) :
    scanInt (Nat.toDigits 10 n ++ s) = some ((n : ℤ), s) := by
  rw [scanInt, scanLong_toDigits (by omega) hs, Option.map_some,
    Int.bmod_eq_of_le (by omega) (by omega)]

theorem cstr_eq_self {buf : List Char} (h : Char.ofNat 0 ∉ buf) : cstr buf = buf :=
  List.takeWhile_eq_self_iff.mpr fun c hc => by
    rw [decide_eq_true_eq]
    rintro rfl
    exact h hc

end DdsBenchmark.CLib
