import Mathlib.Data.Rat.Defs
import Mathlib.Algebra.Order.Field.Rat
import Mathlib.Data.List.TakeWhile

/-! The C library functions on text that a reader of line-oriented files uses. A byte is a
character, a stream is the list of the bytes still unread, and a C string is the list of its
bytes without the terminating NUL. Conversions are exact: a `double` is a rational, and the
hexadecimal, infinite and not-a-number forms are not converted. -/

namespace DdsBenchmark.CLib

/-- The part of a buffer that counts as a C string. -/
def cstr (buf : List Char) : List Char := buf.takeWhile (· ≠ Char.ofNat 0)

theorem cstr_append {xs : List Char} (h : Char.ofNat 0 ∉ xs) (ys : List Char) :
    cstr (xs ++ ys) = xs ++ cstr ys :=
  List.takeWhile_append_of_pos fun _ hc => decide_eq_true (ne_of_mem_of_not_mem hc h)

def isspace (c : Char) : Bool := c = ' ' || (9 ≤ c.toNat && c.toNat ≤ 13)

/-- What successive calls of `fgets` with room for `cap` characters return, `room` of them
still free in the line being read. -/
def fgetsLines (cap : ℕ) : ℕ → List Char → List (List Char)
  | _, [] => []
  | room, c :: s =>
    if c = '\n' ∨ room ≤ 1 then [c] :: fgetsLines cap cap s
    else match fgetsLines cap (room - 1) s with
      | [] => [[c]]
      | line :: lines => (c :: line) :: lines

/-- The lines are the stream, cut. -/
theorem flatten_fgetsLines (cap room : ℕ) (s : List Char) :
    (fgetsLines cap room s).flatten = s := by
  induction s generalizing room with
  | nil => simp [fgetsLines]
  | cons c s ih =>
    rw [fgetsLines]
    split_ifs with hc
    · rw [List.flatten_cons, ih, List.singleton_append]
    · have hh := ih (room - 1)
      cases hl : fgetsLines cap (room - 1) s with
      | nil => rw [hl] at hh; simp [← hh]
      | cons line lines => rw [hl] at hh; simp [← hh]

/-- A line that fits is read with its newline. -/
theorem fgetsLines_line {line : List Char} (h : '\n' ∉ line) {cap room : ℕ}
    (hl : line.length < room) (s : List Char) :
    fgetsLines cap room (line ++ '\n' :: s) = (line ++ ['\n']) :: fgetsLines cap cap s := by
  induction line generalizing room with
  | nil => rw [List.nil_append, fgetsLines, if_pos (Or.inl rfl), List.nil_append]
  | cons c line ih =>
    obtain ⟨hc, h⟩ := not_or.mp (mt List.mem_cons.mpr h)
    rw [List.length_cons] at hl
    rw [List.cons_append, fgetsLines, if_neg (not_or.mpr ⟨fun hn => hc hn.symm, by omega⟩),
      ih h (by omega)]
    rfl

/-- What fits of the first line is read in one call, whatever else the call reads. -/
theorem head?_fgetsLines {line : List Char} (h : '\n' ∉ line) {cap room : ℕ}
    (hl : line.length ≤ room) (hne : line ≠ []) (s : List Char) :
    ∃ more, more <+: s ∧ (fgetsLines cap room (line ++ s)).head? = some (line ++ more) := by
  induction line generalizing room with
  | nil => exact absurd rfl hne
  | cons c line ih =>
    obtain ⟨hc, h⟩ := not_or.mp (mt List.mem_cons.mpr h)
    rw [List.length_cons] at hl
    have hnl : c ≠ '\n' := fun he => hc he.symm
    rw [List.cons_append, fgetsLines]
    by_cases hroom : room ≤ 1
    · obtain rfl := List.length_eq_zero_iff.mp (show line.length = 0 by omega)
      rw [if_pos (Or.inr hroom)]
      exact ⟨[], List.nil_prefix, rfl⟩
    · rw [if_neg (not_or.mpr ⟨hnl, hroom⟩)]
      by_cases hline : line = []
      · subst hline
        have hflat := flatten_fgetsLines cap (room - 1) s
        rw [List.nil_append]
        cases hs : fgetsLines cap (room - 1) s with
        | nil => exact ⟨[], List.nil_prefix, rfl⟩
        | cons first others => exact ⟨first, ⟨others.flatten, by rw [← hflat, hs]; rfl⟩, rfl⟩
      · obtain ⟨more, hmore, hfirst⟩ := ih h (show line.length ≤ room - 1 by omega) hline
        obtain ⟨others, hs⟩ := List.head?_eq_some_iff.mp hfirst
        rw [hs]
        exact ⟨more, hmore, rfl⟩

/-- `strncmp (a, b, n) == 0`. -/
def strncmpEq (a b : List Char) (n : ℕ) : Bool := a.take n = b.take n

/-- `strrchr`: the suffix from the last occurrence of `c`. -/
def strrchr (c : Char) : List Char → Option (List Char)
  | [] => none
  | x :: s => match strrchr c s with
    | some t => some t
    | none => if x = c then some (x :: s) else none

/-- The last occurrence is found whatever stands before it. -/
theorem strrchr_append {c : Char} {t : List Char} (h : c ∉ t) (s : List Char) :
    strrchr c (s ++ c :: t) = some (c :: t) := by
  have hnone : strrchr c t = none := by
    induction t with
    | nil => rfl
    | cons x t ih =>
      obtain ⟨hx, h⟩ := not_or.mp (mt List.mem_cons.mpr h)
      rw [strrchr, ih h]
      exact if_neg fun he => hx he.symm
  induction s with
  | nil => rw [List.nil_append, strrchr, hnone]; exact if_pos rfl
  | cons x s ih => rw [List.cons_append, strrchr, ih]

/-- The tokens that successive calls of `strtok_r` with the delimiter `c` return. -/
def strtok (c : Char) (s : List Char) : List (List Char) := (s.splitOn c).filter (· ≠ [])

theorem strtok_append_cons (c : Char) (s t : List Char) :
    strtok c (s ++ c :: t) = strtok c s ++ strtok c t := by
  rw [strtok, List.splitOn_append_cons_self, List.filter_append]
  rfl

theorem strtok_cons_self (c : Char) (s : List Char) : strtok c (c :: s) = strtok c s :=
  strtok_append_cons c [] s

/-- A word is a token up to the next delimiter. -/
theorem strtok_word {c : Char} {w : List Char} (hw : w ≠ [] ∧ c ∉ w) {s : List Char}
    (hs : s = [] ∨ s.head? = some c) : strtok c (w ++ s) = w :: strtok c s := by
  have hword : strtok c w = [w] := by
    rw [strtok, List.splitOn_eq_singleton hw.2]
    simp [hw.1]
  obtain rfl | hs := hs
  · rw [List.append_nil, hword]
    rfl
  · obtain ⟨s, rfl⟩ := List.head?_eq_some_iff.mp hs
    rw [strtok_append_cons, hword, strtok_cons_self]
    rfl

/-- Words behind single delimiters are the tokens. -/
theorem strtok_flatMap {c : Char} {words : List (List Char)}
    (hw : ∀ w ∈ words, w ≠ [] ∧ c ∉ w) {s : List Char} (hs : s = [] ∨ s.head? = some c) :
    strtok c (words.flatMap (c :: ·) ++ s) = words ++ strtok c s := by
  induction words with
  | nil => rfl
  | cons w words ih =>
    obtain ⟨hw, hws⟩ := List.forall_mem_cons.mp hw
    have hrest : words.flatMap (c :: ·) ++ s = [] ∨
        (words.flatMap (c :: ·) ++ s).head? = some c := by
      cases words with
      | nil => exact hs
      | cons w' words => exact Or.inr rfl
    rw [List.flatMap_cons, List.cons_append, List.cons_append, List.append_assoc,
      strtok_cons_self, strtok_word hw hrest, ih hws]
    rfl

def digitValue (c : Char) : ℕ := c.toNat - '0'.toNat

/-- The value of a string of decimal digits. -/
def decimal (ds : List Char) : ℕ := ds.foldl (fun n c => 10 * n + digitValue c) 0

/-- An optional sign, `true` for minus, and the rest. -/
def sign : List Char → Bool × List Char
  | '-' :: s => (true, s)
  | '+' :: s => (false, s)
  | s => (false, s)

/-- `sscanf (s, "%lu", ..)`: nothing is assigned when there is no digit to convert. -/
def sscanfLu (s : List Char) : Option UInt64 :=
  let (neg, s) := sign (s.dropWhile isspace)
  let ds := s.takeWhile Char.isDigit
  if ds = [] then none
  else if 2 ^ 64 ≤ decimal ds then some (UInt64.ofNat (2 ^ 64 - 1))
  else some (if neg then -UInt64.ofNat (decimal ds) else UInt64.ofNat (decimal ds))

section Digit
variable {c : Char}

theorem not_isspace_of_isDigit (h : c.isDigit) : isspace c = false := by
  have hne : c ≠ ' ' := by
    rintro rfl
    exact absurd h (by decide)
  have hle : 48 ≤ c.toNat := by
    simp only [Char.isDigit, Bool.and_eq_true, decide_eq_true_eq] at h
    exact h.1
  have hlt : ¬ c.toNat ≤ 13 := by omega
  simp [isspace, hne, hlt]

/-- A digit is no sign. -/
theorem sign_of_isDigit (h : c.isDigit) (s : List Char) : sign (c :: s) = (false, c :: s) := by
  unfold sign
  split
  · exact absurd h (by simp_all)
  · exact absurd h (by simp_all)
  · rfl

end Digit

theorem takeWhile_isDigit_append {s t : List Char} (ht : ∀ c ∈ t.head?, c.isDigit = false) :
    (s ++ t).takeWhile Char.isDigit = s.takeWhile Char.isDigit := by
  have hnil : t.takeWhile Char.isDigit = [] := by
    cases t with
    | nil => rfl
    | cons c t => rw [List.takeWhile_cons, ht c rfl]; rfl
  rw [List.takeWhile_append, hnil, List.append_nil]
  split_ifs with hlen
  · exact (List.IsPrefix.eq_of_length (List.takeWhile_prefix _) hlen).symm
  · rfl

/-- Blanks and a number that fits. -/
theorem sscanfLu_digits {blanks digits : List Char} (hb : ∀ c ∈ blanks, isspace c)
    (hd : ∀ c ∈ digits, c.isDigit) (hne : digits ≠ []) (hlt : decimal digits < 2 ^ 64)
    {s : List Char} (hs : ∀ c ∈ s.head?, c.isDigit = false) :
    sscanfLu (blanks ++ (digits ++ s)) = some (UInt64.ofNat (decimal digits)) := by
  obtain ⟨d, ds, rfl⟩ := List.exists_cons_of_ne_nil hne
  have hdigit : d.isDigit := hd d List.mem_cons_self
  have hdrop : (blanks ++ ((d :: ds) ++ s)).dropWhile isspace = d :: (ds ++ s) := by
    rw [List.dropWhile_append_of_pos hb, List.cons_append, List.dropWhile_cons,
      not_isspace_of_isDigit hdigit]
    rfl
  have htake : (d :: (ds ++ s)).takeWhile Char.isDigit = d :: ds := by
    rw [← List.cons_append, takeWhile_isDigit_append hs]
    exact List.takeWhile_eq_self_iff.mpr hd
  unfold sscanfLu
  simp only [hdrop, sign_of_isDigit hdigit, htake]
  rw [if_neg (List.cons_ne_nil d ds), if_neg (by omega), if_neg Bool.false_ne_true]

theorem sign_cons_append (c : Char) (s t : List Char) :
    sign (c :: (s ++ t)) = ((sign (c :: s)).1, (sign (c :: s)).2 ++ t) := by
  by_cases hminus : c = '-'
  · subst hminus
    rfl
  · by_cases hplus : c = '+'
    · subst hplus
      rfl
    · have hsign : ∀ r, sign (c :: r) = (false, c :: r) := by
        intro r
        unfold sign
        split <;> simp_all
      rw [hsign, hsign]
      rfl

/-- A conversion does not see what follows a colon. -/
theorem sscanfLu_append_colon (s t : List Char) : sscanfLu (s ++ ':' :: t) = sscanfLu s := by
  have hcolon : ∀ c ∈ (':' :: t).head?, c.isDigit = false := by
    intro c hc
    obtain rfl := Option.some.inj hc
    decide
  unfold sscanfLu
  rw [List.dropWhile_append]
  cases s.dropWhile isspace with
  | nil => rfl
  | cons c r =>
    dsimp only [List.isEmpty_cons]
    rw [if_neg Bool.false_ne_true, List.cons_append, sign_cons_append,
      takeWhile_isDigit_append hcolon]

/-- `atoll` of a string that starts with a digit, as stored in a `uint64_t`. -/
def atoll (s : List Char) : UInt64 :=
  UInt64.ofNat (min (decimal (s.takeWhile Char.isDigit)) (2 ^ 63 - 1))

/-- `atoi`, which is `strtol` cut down to an `int`. -/
def atoi (s : List Char) : ℤ :=
  let (neg, s) := sign (s.dropWhile isspace)
  let value : ℤ := decimal (s.takeWhile Char.isDigit)
  (max (-2 ^ 63) (min (if neg then -value else value) (2 ^ 63 - 1))).bmod (2 ^ 32)

theorem atoi_digits {digits : List Char} (hd : ∀ c ∈ digits, c.isDigit)
    (hlt : decimal digits < 2 ^ 31) : atoi digits = decimal digits := by
  have hsign : sign (digits.dropWhile isspace) = (false, digits) := by
    cases digits with
    | nil => rfl
    | cons d ds =>
      have hdigit : d.isDigit := hd d List.mem_cons_self
      rw [List.dropWhile_cons, not_isspace_of_isDigit hdigit]
      exact sign_of_isDigit hdigit ds
  have htake : digits.takeWhile Char.isDigit = digits := List.takeWhile_eq_self_iff.mpr hd
  unfold atoi
  simp only [hsign, htake]
  rw [if_neg Bool.false_ne_true, min_eq_left (by omega), max_eq_right (by omega),
    Int.bmod_eq_of_le (by omega) (by omega)]

/-- The value of a fraction part, if the string starts with one, and the rest. -/
def fraction : List Char → ℚ × List Char
  | '.' :: s =>
    let ds := s.takeWhile Char.isDigit
    ((decimal ds : ℚ) / 10 ^ ds.length, s.dropWhile Char.isDigit)
  | s => (0, s)

/-- The exponent part, if the string starts with a complete one. -/
def exponent : List Char → ℤ
  | c :: s =>
    let (neg, s) := sign s
    let ds := s.takeWhile Char.isDigit
    if (c = 'e' ∨ c = 'E') ∧ ds ≠ [] then
      (if neg then -(decimal ds : ℤ) else decimal ds) else 0
  | [] => 0

/-- `atof`. -/
def atof (s : List Char) : ℚ :=
  let (neg, s) := sign (s.dropWhile isspace)
  let (frac, rest) := fraction (s.dropWhile Char.isDigit)
  let value := ((decimal (s.takeWhile Char.isDigit) : ℚ) + frac) * 10 ^ exponent rest
  if neg then -value else value

end DdsBenchmark.CLib
