import Mathlib.Data.Nat.Digits.Defs
import Mathlib.Data.Nat.Bitwise
import Mathlib.Algebra.Ring.Nat

/-! Fixed-width words and their bytes. A word of `k` bytes is a natural number below `256 ^ k`;
its bytes are listed from the least significant one on, and a byte order lists them that way or
the other way round. Masks and shifts by whole bytes act on the bytes one by one, and so does an
exchange of neighbouring groups of bytes. -/

namespace DdsBenchmark.Wire

/-- The byte of `w` with index `j`, counted from the least significant one. -/
def digit (w j : ℕ) : ℕ := w / 256 ^ j % 256

/-- The bytes of a word, the least significant one first. -/
def wordBytes (k w : ℕ) : List UInt8 := (List.range k).map fun j => UInt8.ofNat (digit w j)

/-- The word with these bytes, the least significant one first. -/
def wordValue (bs : List UInt8) : ℕ := Nat.ofDigits 256 (bs.map UInt8.toNat)

inductive Endianness where
  | littleEndian
  | bigEndian
  deriving DecidableEq

/-- The bytes of a word in a byte order; the same map takes them back. -/
def Endianness.order : Endianness → List UInt8 → List UInt8
  | .littleEndian, bs => bs
  | .bigEndian, bs => bs.reverse

@[simp] theorem order_order (e : Endianness) (bs : List UInt8) : e.order (e.order bs) = bs := by
  cases e <;> simp [Endianness.order]

@[simp] theorem length_order (e : Endianness) (bs : List UInt8) :
    (e.order bs).length = bs.length := by
  cases e <;> simp [Endianness.order]

@[simp] theorem order_reverse (e : Endianness) (bs : List UInt8) :
    e.order bs.reverse = (e.order bs).reverse := by
  cases e <;> rfl

/-- In another byte order the bytes are reversed. -/
theorem order_of_ne {e e' : Endianness} (h : e ≠ e') (bs : List UInt8) :
    (e.order bs).reverse = e'.order bs := by
  cases e <;> cases e' <;> simp_all [Endianness.order]

section Words

@[simp] theorem length_wordBytes (k w : ℕ) : (wordBytes k w).length = k := by
  simp [wordBytes]

theorem digit_succ (w j : ℕ) : digit w (j + 1) = digit (w / 256) j := by
  simp [digit, pow_succ', Nat.div_div_eq_div_mul]

theorem wordBytes_succ (k w : ℕ) :
    wordBytes (k + 1) w = UInt8.ofNat (w % 256) :: wordBytes k (w / 256) := by
  simp only [wordBytes, List.range_succ_eq_map, List.map_cons, List.map_map, Function.comp_def,
    digit_succ]
  simp [digit]

@[simp] theorem wordValue_nil : wordValue [] = 0 := rfl

@[simp] theorem wordValue_cons (b : UInt8) (bs : List UInt8) :
    wordValue (b :: bs) = b.toNat + 256 * wordValue bs := Nat.ofDigits_cons ..

/-- A word is told by its bytes. -/
theorem wordValue_wordBytes {k w : ℕ} (h : w < 256 ^ k) : wordValue (wordBytes k w) = w := by
  induction k generalizing w with
  | zero =>
    have hw : w = 0 := by simpa using h
    simp [wordBytes, hw]
  | succ k ih =>
    have hdiv : w / 256 < 256 ^ k := by
      apply Nat.div_lt_of_lt_mul
      rwa [pow_succ'] at h
    have hmod : w % 256 % 2 ^ 8 = w % 256 := by omega
    rw [wordBytes_succ, wordValue_cons, ih hdiv, UInt8.toNat_ofNat', hmod]
    omega

/-- Bytes are told by their word. -/
theorem wordBytes_wordValue (bs : List UInt8) : wordBytes bs.length (wordValue bs) = bs := by
  induction bs with
  | nil => rfl
  | cons b bs ih =>
    have hb := b.toNat_lt
    have hmod : (b.toNat + 256 * wordValue bs) % 256 = b.toNat := by omega
    have hdiv : (b.toNat + 256 * wordValue bs) / 256 = wordValue bs := by omega
    rw [List.length_cons, wordBytes_succ, wordValue_cons, hmod, hdiv, ih, UInt8.ofNat_toNat]

theorem wordValue_lt (bs : List UInt8) : wordValue bs < 256 ^ bs.length := by
  induction bs with
  | nil => simp
  | cons b bs ih =>
    have hb := b.toNat_lt
    rw [wordValue_cons, List.length_cons, pow_succ']
    omega

/-- Words of the same width are equal when their bytes are. -/
theorem eq_of_wordBytes_eq {k v w : ℕ} (hv : v < 256 ^ k) (hw : w < 256 ^ k)
    (h : wordBytes k v = wordBytes k w) : v = w := by
  rw [← wordValue_wordBytes hv, h, wordValue_wordBytes hw]

end Words

section Digits

theorem digit_eq_shiftRight (w j : ℕ) : digit w j = w >>> (8 * j) % 2 ^ 8 := by
  rw [digit, Nat.shiftRight_eq_div_pow, pow_mul, show (2 : ℕ) ^ 8 = 256 by rfl]

theorem digit_lt (w j : ℕ) : digit w j < 256 := Nat.mod_lt _ (by decide)

theorem digit_and (v w j : ℕ) : digit (v &&& w) j = digit v j &&& digit w j := by
  simp only [digit_eq_shiftRight, Nat.shiftRight_and_distrib, Nat.and_mod_two_pow]

theorem digit_or (v w j : ℕ) : digit (v ||| w) j = digit v j ||| digit w j := by
  simp only [digit_eq_shiftRight, Nat.shiftRight_or_distrib, Nat.or_mod_two_pow]

theorem digit_shiftRight (w m j : ℕ) : digit (w >>> (8 * m)) j = digit w (m + j) := by
  rw [digit_eq_shiftRight, digit_eq_shiftRight, ← Nat.shiftRight_add, ← Nat.mul_add]

theorem digit_shiftLeft (w m j : ℕ) :
    digit (w <<< (8 * m)) j = if m ≤ j then digit w (j - m) else 0 := by
  split
  · rename_i h
    obtain ⟨i, rfl⟩ := Nat.exists_eq_add_of_le h
    rw [Nat.add_sub_cancel_left, ← digit_shiftRight, Nat.shiftLeft_shiftRight]
  · rename_i h
    obtain ⟨i, rfl⟩ := Nat.exists_eq_add_of_lt (Nat.lt_of_not_le h)
    have hpow : w * 2 ^ (8 * (j + i + 1)) = w * 256 ^ i * 256 * 256 ^ j := by
      rw [pow_mul, show (2 : ℕ) ^ 8 = 256 by rfl, pow_succ, pow_add]
      ring
    rw [digit, Nat.shiftLeft_eq, hpow, Nat.mul_div_cancel _ (by positivity), Nat.mul_mod_left]

/-- A full byte masks nothing. -/
@[simp] theorem digit_and_ones (w j : ℕ) : digit w j &&& 255 = digit w j := by
  rw [show 255 = 2 ^ 8 - 1 by rfl, Nat.and_two_pow_sub_one_eq_mod]
  exact Nat.mod_eq_of_lt (digit_lt w j)

end Digits

section Masks

/-- A mask of whole bytes, with the bytes it keeps. -/
def Masks (mask : ℕ) (keep : List Bool) : Prop :=
  ∀ j, digit mask j = if keep.getD j false then 255 else 0

/-- Beyond its length a number has no bytes, so that finitely many decide what it masks. -/
theorem masks_of_digits {mask : ℕ} {keep : List Bool} (hlt : mask < 256 ^ keep.length)
    (hdigits : (List.range keep.length).map (digit mask) =
      keep.map fun kept => if kept then 255 else 0) : Masks mask keep := by
  intro j
  by_cases hj : j < keep.length
  · have hdigit := congrArg (fun ds => ds.getD j 0) hdigits
    simp only [List.getD_eq_getElem?_getD, List.getElem?_map, List.getElem?_range hj,
      List.getElem?_eq_getElem hj, Option.map_some, Option.getD_some] at hdigit ⊢
    exact hdigit
  · have hpow : mask < 256 ^ j := hlt.trans_le (Nat.pow_le_pow_right (by decide) (by omega))
    rw [digit, Nat.div_eq_of_lt hpow, List.getD_eq_default _ _ (by omega)]
    rfl

/-- Groups of `m` bytes change places: those under `hi` go down, those under `lo` go up. -/
def exchange (hi lo m w : ℕ) : ℕ := ((w &&& hi) >>> (8 * m)) ||| ((w &&& lo) <<< (8 * m))

theorem digit_exchange (hi lo m w j : ℕ) :
    digit (exchange hi lo m w) j =
      (digit w (m + j) &&& digit hi (m + j)) |||
        (if m ≤ j then digit w (j - m) &&& digit lo (j - m) else 0) := by
  rw [exchange, digit_or, digit_shiftRight, digit_and, digit_shiftLeft]
  simp only [digit_and]

theorem exchange_lt {hi lo m n : ℕ} (hhi : hi < 2 ^ n) (hlo : lo <<< (8 * m) < 2 ^ n) (w : ℕ) :
    exchange hi lo m w < 2 ^ n := by
  apply Nat.or_lt_two_pow
  · exact (Nat.shiftRight_le _ _).trans_lt (Nat.and_le_right.trans_lt hhi)
  · refine lt_of_le_of_lt ?_ hlo
    rw [Nat.shiftLeft_eq, Nat.shiftLeft_eq]
    exact Nat.mul_le_mul_right _ Nat.and_le_right

end Masks

end DdsBenchmark.Wire
