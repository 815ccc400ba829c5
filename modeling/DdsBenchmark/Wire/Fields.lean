import DdsBenchmark.Wire.Codec

/-! The fields of a binary format: arrays of fixed-width words, aligned to their width, and strings
and byte sequences with their length in front. The length is a word of four bytes: a longer
string is written with its length cut off, and does not fit. -/

namespace DdsBenchmark.Wire

variable (o : Endianness)

/-- The bytes of some words, one behind the other. -/
def putWords (k : ℕ) (ws : List ℕ) : List UInt8 := ws.flatMap fun w => o.order (wordBytes k w)

/-- The first `n` words of `k` bytes each. -/
def takeWords (k : ℕ) : ℕ → List UInt8 → List ℕ
  | 0, _ => []
  | n + 1, bs => wordValue (o.order (bs.take k)) :: takeWords k n (bs.drop k)

@[simp] theorem putWords_nil (k : ℕ) : putWords o k [] = [] := rfl

@[simp] theorem putWords_cons (k w : ℕ) (ws : List ℕ) :
    putWords o k (w :: ws) = o.order (wordBytes k w) ++ putWords o k ws := rfl

@[simp] theorem length_putWords (k : ℕ) (ws : List ℕ) :
    (putWords o k ws).length = k * ws.length := by
  induction ws with
  | nil => rfl
  | cons w ws ih =>
    rw [putWords_cons, List.length_append, ih, length_order, length_wordBytes, List.length_cons]
    ring

theorem takeWords_putWords {k : ℕ} {ws : List ℕ} (h : ∀ w ∈ ws, w < 256 ^ k)
    (after : List UInt8) : takeWords o k ws.length (putWords o k ws ++ after) = ws := by
  induction ws with
  | nil => rfl
  | cons w ws ih =>
    have hlength : (o.order (wordBytes k w)).length = k := by simp
    rw [putWords_cons, List.append_assoc, List.length_cons, takeWords,
      List.take_left' hlength, List.drop_left' hlength, order_order,
      wordValue_wordBytes (h w List.mem_cons_self),
      ih fun v hv => h v (List.mem_cons_of_mem w hv)]

@[simp] theorem length_takeWords (k n : ℕ) (bs : List UInt8) :
    (takeWords o k n bs).length = n := by
  induction n generalizing bs with
  | zero => rfl
  | succ n ih => rw [takeWords, List.length_cons, ih]

theorem lt_of_mem_takeWords {k n : ℕ} {bs : List UInt8} {w : ℕ} (h : w ∈ takeWords o k n bs) :
    w < 256 ^ k := by
  induction n generalizing bs with
  | zero => cases h
  | succ n ih =>
    rw [takeWords, List.mem_cons] at h
    rcases h with rfl | h
    · refine (wordValue_lt _).trans_le (Nat.pow_le_pow_right (by decide) ?_)
      rw [length_order]
      exact List.length_take_le k bs
    · exact ih h

/-- Bytes behind the words are not read. -/
theorem takeWords_append {k n : ℕ} {bs : List UInt8} (h : k * n ≤ bs.length)
    (after : List UInt8) : takeWords o k n (bs ++ after) = takeWords o k n bs := by
  induction n generalizing bs with
  | zero => rfl
  | succ n ih =>
    have hk : k ≤ bs.length := le_trans (Nat.le_mul_of_pos_right k (Nat.succ_pos n)) h
    have hrest : k * n ≤ (bs.drop k).length := by
      rw [List.length_drop]
      rw [Nat.mul_succ] at h
      omega
    rw [takeWords, takeWords, List.take_append_of_le_length hk, List.drop_append_of_le_length hk,
      ih hrest]

theorem putWords_takeWords {k n : ℕ} {bs : List UInt8} (h : k * n ≤ bs.length) :
    putWords o k (takeWords o k n bs) = bs.take (k * n) := by
  induction n generalizing bs with
  | zero => simp [takeWords]
  | succ n ih =>
    rw [Nat.mul_succ] at h ⊢
    have hlength : (o.order (bs.take k)).length = k := by
      rw [length_order, List.length_take]
      omega
    have hfirst := wordBytes_wordValue (o.order (bs.take k))
    rw [hlength] at hfirst
    rw [takeWords, putWords_cons, hfirst, order_order, ih (by rw [List.length_drop]; omega),
      Nat.add_comm, List.take_add]

namespace Codec

/-- An array of `n` words of `k` bytes, aligned to `k`. -/
def words (k n : ℕ) : Codec (List ℕ) where
  encode p ws := List.replicate (padding p k) 0 ++ putWords o k ws
  decode b p :=
    if p + padding p k + k * n ≤ b.length then
      some (takeWords o k n (b.drop (p + padding p k)), p + padding p k + k * n)
    else none
  Fits ws := ws.length = n ∧ ∀ w ∈ ws, w < 256 ^ k
  decode_encode before ws after h := by
    obtain ⟨rfl, hlt⟩ := h
    have hlength : (before ++ List.replicate (padding before.length k) (0 : UInt8)).length =
        before.length + padding before.length k := by simp
    rw [if_pos (by simp only [List.length_append, List.length_replicate, length_putWords]; omega),
      List.append_assoc, ← List.append_assoc, List.drop_left' hlength, takeWords_putWords o hlt]
    simp [Nat.add_assoc]
  decode_append b p ws q c h := by
    split at h
    · rename_i hfit
      have hdrop : p + padding p k ≤ b.length := by omega
      rw [if_pos (by rw [List.length_append]; omega), List.drop_append_of_le_length hdrop,
        takeWords_append o (by rw [List.length_drop]; omega), h]
    · cases h
  decode_end b p ws q h := by
    split at h
    · rename_i hfit
      cases h
      refine ⟨⟨length_takeWords o k n _, fun w hw => lt_of_mem_takeWords o hw⟩, ?_, hfit⟩
      simp [Nat.add_assoc]
    · cases h

theorem length_encode_words (k p : ℕ) (ws : List ℕ) :
    ((words o k ws.length).encode p ws).length = padding p k + k * ws.length := by
  show (List.replicate (padding p k) 0 ++ putWords o k ws).length = _
  simp

/-- A single word. -/
def word (k : ℕ) : Codec ℕ :=
  (words o k 1).map (fun ws => ws.headD 0) (fun w => [w]) (fun _ => rfl) (by
    rintro ws ⟨hlength, -⟩
    obtain ⟨w, rfl⟩ := List.length_eq_one_iff.mp hlength
    rfl)

theorem fits_word {k w : ℕ} : (word o k).Fits w ↔ w < 256 ^ k := by
  simp [word, words, map]

theorem length_encode_word (k p w : ℕ) :
    ((word o k).encode p w).length = padding p k + k :=
  (length_encode_words o k p [w]).trans (by simp)

theorem encode_word {k p : ℕ} (hp : k ∣ p) (w : ℕ) :
    (word o k).encode p w = o.order (wordBytes k w) := by
  show List.replicate (padding p k) 0 ++ putWords o k [w] = _
  simp [padding_eq_zero_of_dvd hp]

/-- A word is read where its bytes stand, and nowhere else. -/
theorem decode_word_iff {b : List UInt8} {p k w q : ℕ} (hp : k ∣ p) (hb : p ≤ b.length) :
    (word o k).decode b p = some (w, q) ↔
      w < 256 ^ k ∧ q = p + k ∧ b.drop p = o.order (wordBytes k w) ++ b.drop q := by
  constructor
  · intro h
    obtain ⟨hfits, rfl, hend⟩ := (word o k).decode_end b p w q h
    rw [length_encode_word, padding_eq_zero_of_dvd hp, Nat.zero_add] at hend ⊢
    refine ⟨(fits_word o).mp hfits, rfl, ?_⟩
    have hroom : k * 1 ≤ (b.drop p).length := by
      rw [List.length_drop]
      omega
    have hread : takeWords o k 1 (b.drop p) = [w] := by
      simp only [word, map, words, padding_eq_zero_of_dvd hp, Nat.add_zero, Option.map_eq_some_iff,
        Option.ite_none_right_eq_some] at h
      obtain ⟨r, ⟨-, hr⟩, hw⟩ := h
      cases hr
      exact congrArg (fun v => [v]) (Prod.mk.inj hw).1
    have hbytes := putWords_takeWords o hroom
    rw [hread, Nat.mul_one, putWords_cons, putWords_nil, List.append_nil] at hbytes
    rw [hbytes, ← List.drop_drop, List.take_append_drop]
  · rintro ⟨hw, rfl, hbytes⟩
    have hread := (word o k).decode_at (b := b) (p := p) ((fits_word o).mpr hw)
      (by rw [encode_word o hp, hbytes]; exact List.prefix_append _ _) hb
    rw [hread, encode_word o hp]
    simp

/-- A count of four bytes and as many bytes. -/
def counted (b : List UInt8) (p : ℕ) : Option (List UInt8 × ℕ) :=
  (word o 4).decode b p >>= fun r =>
    if r.2 + r.1 ≤ b.length then some ((b.drop r.2).take r.1, r.2 + r.1) else none

theorem counted_encode (before bs after : List UInt8) (h : bs.length < 2 ^ 32) :
    counted o (before ++ ((word o 4).encode before.length bs.length ++ bs ++ after))
        before.length =
      some (bs, before.length + ((word o 4).encode before.length bs.length ++ bs).length) := by
  have hheader := (word o 4).decode_encode before bs.length (bs ++ after)
    ((fits_word o).mpr (by omega))
  have hlength : (before ++ (word o 4).encode before.length bs.length).length =
      before.length + ((word o 4).encode before.length bs.length).length := by simp
  rw [counted, List.append_assoc ((word o 4).encode _ _), hheader, Option.bind_eq_bind,
    Option.bind_some, if_pos (by simp only [List.length_append]; omega), ← List.append_assoc,
    List.drop_left' hlength]
  simp [Nat.add_assoc]

theorem counted_append {b : List UInt8} {p : ℕ} {r : List UInt8 × ℕ} (c : List UInt8)
    (h : counted o b p = some r) : counted o (b ++ c) p = some r := by
  simp only [counted, Option.bind_eq_bind, Option.bind_eq_some_iff] at h ⊢
  obtain ⟨t, ht, h⟩ := h
  refine ⟨t, (word o 4).decode_append b p t.1 t.2 c ht, ?_⟩
  split at h
  · rename_i hfit
    rw [if_pos (by rw [List.length_append]; omega), List.drop_append_of_le_length (by omega),
      List.take_append_of_le_length (by rw [List.length_drop]; omega), h]
  · cases h

theorem counted_end {b : List UInt8} {p : ℕ} {bs : List UInt8} {q : ℕ}
    (h : counted o b p = some (bs, q)) :
    bs.length < 2 ^ 32 ∧ q = p + (padding p 4 + 4) + bs.length ∧ q ≤ b.length := by
  simp only [counted, Option.bind_eq_bind, Option.bind_eq_some_iff] at h
  obtain ⟨⟨n, q'⟩, hr, h⟩ := h
  obtain ⟨hn, rfl, -⟩ := (word o 4).decode_end b p n q' hr
  rw [fits_word] at hn
  rw [length_encode_word] at h
  split at h
  · rename_i hfit
    cases h
    have hlength : ((b.drop (p + (padding p 4 + 4))).take n).length = n := by
      rw [List.length_take, List.length_drop]
      omega
    exact ⟨by rw [hlength]; omega, by rw [hlength], hfit⟩
  · cases h

/-- The null is taken off; a count of zero is no string. -/
def dropNull (r : List UInt8 × ℕ) : Option (List UInt8 × ℕ) :=
  if r.1.isEmpty then none else some (r.1.dropLast, r.2)

theorem dropNull_eq_some {bs s : List UInt8} {q q' : ℕ}
    (h : dropNull (bs, q) = some (s, q')) : bs.length = s.length + 1 ∧ q = q' := by
  unfold dropNull at h
  split at h
  · cases h
  · rename_i hne
    cases h
    simp only [List.isEmpty_iff] at hne
    have hpos := List.length_pos_iff.mpr hne
    have hpos' : 0 < bs.length := hpos
    refine ⟨?_, rfl⟩
    show bs.length = bs.dropLast.length + 1
    rw [List.length_dropLast]
    omega

theorem dropNull_append (s : List UInt8) (q : ℕ) : dropNull (s ++ [0], q) = some (s, q) := by
  simp [dropNull]

/-- The count of the bytes and the null behind them, the bytes, the null. -/
def putString (p : ℕ) (s : List UInt8) : List UInt8 :=
  (word o 4).encode p ((s.length + 1) % 2 ^ 32) ++ (s ++ [0])

def takeString (b : List UInt8) (p : ℕ) : Option (List UInt8 × ℕ) := counted o b p >>= dropNull

theorem takeString_putString (before s after : List UInt8) (h : s.length + 1 < 2 ^ 32) :
    takeString o (before ++ (putString o before.length s ++ after)) before.length =
      some (s, before.length + (putString o before.length s).length) := by
  have hread := counted_encode o before (s ++ [0]) after (by simpa using h)
  rw [List.length_append, List.length_singleton] at hread
  rw [takeString, putString, Nat.mod_eq_of_lt h, hread]
  exact dropNull_append s _

theorem takeString_append (b : List UInt8) (p : ℕ) (s : List UInt8) (q : ℕ) (c : List UInt8)
    (h : takeString o b p = some (s, q)) : takeString o (b ++ c) p = some (s, q) := by
  simp only [takeString, Option.bind_eq_bind, Option.bind_eq_some_iff] at h ⊢
  obtain ⟨r, hr, h⟩ := h
  exact ⟨r, counted_append o c hr, h⟩

theorem takeString_end (b : List UInt8) (p : ℕ) (s : List UInt8) (q : ℕ)
    (h : takeString o b p = some (s, q)) :
    s.length + 1 < 2 ^ 32 ∧ q = p + (putString o p s).length ∧ q ≤ b.length := by
  simp only [takeString, Option.bind_eq_bind, Option.bind_eq_some_iff] at h
  obtain ⟨⟨bs, q'⟩, hr, h⟩ := h
  obtain ⟨hlength, rfl⟩ := dropNull_eq_some h
  obtain ⟨hfits, rfl, hend⟩ := counted_end o hr
  refine ⟨by omega, ?_, hend⟩
  rw [putString, List.length_append, length_encode_word, List.length_append,
    List.length_singleton, hlength, Nat.add_assoc]

/-- Once the count is read, the string is what the buffer holds of it. -/
theorem takeString_eq {b : List UInt8} {p w q : ℕ} (h : (word o 4).decode b p = some (w, q)) :
    takeString o b p = if q + w ≤ b.length ∧ w ≠ 0 then
        some ((b.drop q).take (w - 1), q + w)
      else none := by
  have hcounted : counted o b p =
      if q + w ≤ b.length then some ((b.drop q).take w, q + w) else none := by
    rw [counted, h]
    rfl
  rw [takeString, hcounted]
  by_cases hroom : q + w ≤ b.length
  · have hlength : ((b.drop q).take w).length = w := by
      rw [List.length_take, List.length_drop]
      omega
    rw [if_pos hroom, Option.bind_eq_bind, Option.bind_some]
    by_cases hw : w = 0
    · simp [hw, dropNull]
    · have hne : ((b.drop q).take w).isEmpty = false := by
        rw [List.isEmpty_eq_false_iff, ← List.length_pos_iff, hlength]
        omega
      have hnull : ((b.drop q).take w).dropLast = (b.drop q).take (w - 1) := by
        rw [List.dropLast_eq_take, hlength, List.take_take, Nat.min_eq_left (Nat.sub_le w 1)]
      simp [dropNull, hne, hnull, hroom, hw]
  · rw [if_neg hroom, if_neg fun h => hroom h.1]
    rfl

/-- A string, with its null in the buffer and without it outside. -/
def string : Codec (List UInt8) where
  encode := putString o
  decode := takeString o
  Fits s := s.length + 1 < 2 ^ 32
  decode_encode := takeString_putString o
  decode_append := takeString_append o
  decode_end := takeString_end o

/-- A string is read where its count and its bytes stand; the byte behind them may be any. -/
theorem decode_string_iff {b s : List UInt8} {p q : ℕ} (hp : 4 ∣ p) (hb : p ≤ b.length) :
    (string o).decode b p = some (s, q) ↔
      s.length + 1 < 2 ^ 32 ∧ q = p + 4 + (s.length + 1) ∧
        ∃ last, b.drop p = o.order (wordBytes 4 (s.length + 1)) ++ (s ++ last :: b.drop q) := by
  show takeString o b p = _ ↔ _
  constructor
  · intro h
    cases hword : (word o 4).decode b p with
    | none => rw [takeString, counted, hword] at h; cases h
    | some r =>
      obtain ⟨w, q'⟩ := r
      obtain ⟨hw, rfl, hbytes⟩ := (decode_word_iff o hp hb).mp hword
      rw [takeString_eq o hword] at h
      split at h
      · rename_i hfit
        have hlength : ((b.drop (p + 4)).take (w - 1)).length + 1 = w := by
          rw [List.length_take, List.length_drop]
          omega
        cases h
        rw [hlength]
        have hlast : p + 4 + (w - 1) < b.length := by omega
        refine ⟨hw, rfl, b[p + 4 + (w - 1)], ?_⟩
        have hnext : p + 4 + (w - 1) + 1 = p + 4 + w := by omega
        have hchars : (b.drop (p + 4)).take (w - 1) ++ b.drop (p + 4 + (w - 1)) =
            b.drop (p + 4) := by
          rw [← List.drop_drop (j := p + 4), List.take_append_drop]
        rw [hbytes, ← hnext, ← List.drop_eq_getElem_cons hlast, hchars]
      · cases h
  · rintro ⟨hs, rfl, last, hbytes⟩
    have hchars : b.drop (p + 4) = s ++ last :: b.drop (p + 4 + (s.length + 1)) := by
      rw [← List.drop_drop, hbytes, List.drop_left' (by rw [length_order, length_wordBytes])]
    have hword : (word o 4).decode b p = some (s.length + 1, p + 4) := by
      rw [decode_word_iff o hp hb, hchars]
      exact ⟨hs, rfl, hbytes⟩
    have hroom := congrArg List.length hchars
    simp only [List.length_drop, List.length_append, List.length_cons] at hroom
    rw [takeString_eq o hword, if_pos ⟨by omega, by omega⟩, hchars, Nat.add_sub_cancel,
      List.take_left]

end Codec

end DdsBenchmark.Wire
