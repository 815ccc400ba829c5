import DdsBenchmark.Wire.CdrStream

/-! The streaming functions against the codecs. What is written does not depend on the byte order
of the machine, only on that of the stream; writing, reading and moving follow one codec each. -/

namespace DdsBenchmark.Wire

section ByteSwap

theorem wordBytes_two (w : ℕ) :
    wordBytes 2 w = [UInt8.ofNat (digit w 0), UInt8.ofNat (digit w 1)] := rfl

theorem wordBytes_four (w : ℕ) : wordBytes 4 w = [UInt8.ofNat (digit w 0),
    UInt8.ofNat (digit w 1), UInt8.ofNat (digit w 2), UInt8.ofNat (digit w 3)] := rfl

theorem wordBytes_eight (w : ℕ) : wordBytes 8 w = [UInt8.ofNat (digit w 0),
    UInt8.ofNat (digit w 1), UInt8.ofNat (digit w 2), UInt8.ofNat (digit w 3),
    UInt8.ofNat (digit w 4), UInt8.ofNat (digit w 5), UInt8.ofNat (digit w 6),
    UInt8.ofNat (digit w 7)] := rfl

theorem byteSwap_two (w : ℕ) : byteSwap 2 w = exchange 0xFF00 0x00FF 1 w := rfl

theorem byteSwap_four (w : ℕ) : byteSwap 4 w =
    exchange 0xFF00FF00 0x00FF00FF 1 (exchange 0xFFFF0000 0x0000FFFF 2 w) := rfl

theorem byteSwap_eight (w : ℕ) : byteSwap 8 w =
    exchange 0xFF00FF00FF00FF00 0x00FF00FF00FF00FF 1
      (exchange 0xFFFF0000FFFF0000 0x0000FFFF0000FFFF 2
        (exchange 0xFFFFFFFF00000000 0x00000000FFFFFFFF 4 w)) := rfl

theorem wordBytes_byteSwap_two (w : ℕ) :
    wordBytes 2 (byteSwap 2 w) = (wordBytes 2 w).reverse := by
  have hhi : Masks 0xFF00 [false, true] :=
    masks_of_digits (by decide +kernel) (by decide +kernel)
  have hlo : Masks 0x00FF [true, false] :=
    masks_of_digits (by decide +kernel) (by decide +kernel)
  rw [byteSwap_two]
  simp [wordBytes_two, digit_exchange, hhi _, hlo _]

theorem wordBytes_byteSwap_four (w : ℕ) :
    wordBytes 4 (byteSwap 4 w) = (wordBytes 4 w).reverse := by
  have hhi : Masks 0xFFFF0000 [false, false, true, true] :=
    masks_of_digits (by decide +kernel) (by decide +kernel)
  have hlo : Masks 0x0000FFFF [true, true, false, false] :=
    masks_of_digits (by decide +kernel) (by decide +kernel)
  have hhi₁ : Masks 0xFF00FF00 [false, true, false, true] :=
    masks_of_digits (by decide +kernel) (by decide +kernel)
  have hlo₁ : Masks 0x00FF00FF [true, false, true, false] :=
    masks_of_digits (by decide +kernel) (by decide +kernel)
  rw [byteSwap_four]
  simp [wordBytes_four, digit_exchange, hhi _, hlo _, hhi₁ _, hlo₁ _]

theorem wordBytes_byteSwap_eight (w : ℕ) :
    wordBytes 8 (byteSwap 8 w) = (wordBytes 8 w).reverse := by
  have hhi : Masks 0xFFFFFFFF00000000 [false, false, false, false, true, true, true, true] :=
    masks_of_digits (by decide +kernel) (by decide +kernel)
  have hlo : Masks 0x00000000FFFFFFFF [true, true, true, true, false, false, false, false] :=
    masks_of_digits (by decide +kernel) (by decide +kernel)
  have hhi₂ : Masks 0xFFFF0000FFFF0000 [false, false, true, true, false, false, true, true] :=
    masks_of_digits (by decide +kernel) (by decide +kernel)
  have hlo₂ : Masks 0x0000FFFF0000FFFF [true, true, false, false, true, true, false, false] :=
    masks_of_digits (by decide +kernel) (by decide +kernel)
  have hhi₁ : Masks 0xFF00FF00FF00FF00 [false, true, false, true, false, true, false, true] :=
    masks_of_digits (by decide +kernel) (by decide +kernel)
  have hlo₁ : Masks 0x00FF00FF00FF00FF [true, false, true, false, true, false, true, false] :=
    masks_of_digits (by decide +kernel) (by decide +kernel)
  rw [byteSwap_eight]
  simp [wordBytes_eight, digit_exchange, hhi _, hlo _, hhi₂ _, hlo₂ _, hhi₁ _, hlo₁ _]

/-- The sizes of the arithmetic types. -/
def WordSize (k : ℕ) : Prop := k = 1 ∨ k = 2 ∨ k = 4 ∨ k = 8

/-- Swapping reverses the bytes of a number. -/
theorem wordBytes_byteSwap {k : ℕ} (hk : WordSize k) (w : ℕ) :
    wordBytes k (byteSwap k w) = (wordBytes k w).reverse := by
  rcases hk with rfl | rfl | rfl | rfl
  · rfl
  · exact wordBytes_byteSwap_two w
  · exact wordBytes_byteSwap_four w
  · exact wordBytes_byteSwap_eight w

theorem byteSwap_lt {k : ℕ} (hk : WordSize k) {w : ℕ} (hw : w < 256 ^ k) :
    byteSwap k w < 256 ^ k := by
  rcases hk with rfl | rfl | rfl | rfl
  · exact hw
  · rw [byteSwap_two]
    apply exchange_lt (n := 16) <;> decide +kernel
  · rw [byteSwap_four]
    apply exchange_lt (n := 32) <;> decide +kernel
  · rw [byteSwap_eight]
    apply exchange_lt (n := 64) <;> decide +kernel

/-- A number read in the wrong byte order is the other number swapped. -/
theorem byteSwap_wordValue {k : ℕ} (hk : WordSize k) {bs : List UInt8} (h : bs.length = k) :
    byteSwap k (wordValue bs) = wordValue bs.reverse := by
  have hlt : wordValue bs < 256 ^ k := h ▸ wordValue_lt bs
  have hlt' : wordValue bs.reverse < 256 ^ k := by
    simpa [h] using wordValue_lt bs.reverse
  apply eq_of_wordBytes_eq (byteSwap_lt hk hlt) hlt'
  have hreverse := wordBytes_wordValue bs.reverse
  rw [List.length_reverse, h] at hreverse
  rw [wordBytes_byteSwap hk, hreverse, ← h, wordBytes_wordValue]

end ByteSwap

section Overwrite

theorem length_overwrite {b : List UInt8} {p : ℕ} {bs : List UInt8}
    (h : p + bs.length ≤ b.length) : (overwrite b p bs).length = b.length := by
  simp only [overwrite, List.length_append, List.length_take, List.length_drop]
  omega

/-- Writing on where the last write ended is one write. -/
theorem overwrite_overwrite {b : List UInt8} {p : ℕ} (xs ys : List UInt8) (hp : p ≤ b.length) :
    overwrite (overwrite b p xs) (p + xs.length) ys = overwrite b p (xs ++ ys) := by
  have hfront : (b.take p ++ xs).length = p + xs.length := by
    rw [List.length_append, List.length_take_of_le hp]
  have hback : p + xs.length + ys.length = (b.take p ++ xs).length + ys.length := by rw [hfront]
  unfold overwrite
  rw [List.take_left' hfront, hback, List.drop_length_add_append, List.drop_drop,
    List.length_append, Nat.add_assoc, List.append_assoc (b.take p)]

end Overwrite

section Modes

variable (native o : Endianness)

/-- A stream in the byte order `o` at position `p` of its buffer, if it has one, without fault. -/
structure Ready (s : CdrStream) (p : ℕ) (held : Option (List UInt8)) : Prop where
  order : s.streamEndianness = o
  swap : s.swap = decide (native ≠ o)
  position : s.position = some p
  alignment : s.alignment ∣ p
  maxAlignment : s.maxAlignment = 8
  buffer : s.buffer = held
  status : s.status = 0
  faultMask : s.faultMask = ~~~0
  le : ∀ b, held = some b → p ≤ b.length

/-- `f` puts the bytes `encode p` at position `p`, or gives up where they have no room. -/
structure Writes (f : CdrStream → Option CdrStream) (encode : ℕ → List UInt8) : Prop where
  fits : ∀ s p b, Ready native o s p (some b) → p + (encode p).length ≤ b.length →
    ∃ s', f s = some s' ∧
      Ready native o s' (p + (encode p).length) (some (overwrite b p (encode p)))
  exceeds : ∀ s p b, Ready native o s p (some b) → b.length < p + (encode p).length → f s = none

/-- `f` reads what the codec reads. -/
structure Reads {α : Type} (f : CdrStream → Option (α × CdrStream)) (c : Codec α) : Prop where
  accepts : ∀ s p b v q, Ready native o s p (some b) → c.decode b p = some (v, q) →
    ∃ s', f s = some (v, s') ∧ Ready native o s' q (some b)
  rejects : ∀ s p b, Ready native o s p (some b) → c.decode b p = none → f s = none

/-- `f` moves the cursor by as much as there is to write. -/
def Moves (f : CdrStream → Option CdrStream) (encode : ℕ → List UInt8) : Prop :=
  ∀ s p, Ready native o s p none →
    ∃ s', f s = some s' ∧ Ready native o s' (p + (encode p).length) none

variable {native o}

theorem Writes.bind {f g : CdrStream → Option CdrStream} {enc enc' : ℕ → List UInt8}
    (hf : Writes native o f enc) (hg : Writes native o g enc') :
    Writes native o (fun s => f s >>= g) (fun p => enc p ++ enc' (p + (enc p).length)) where
  fits s p b hs hroom := by
    rw [List.length_append, ← Nat.add_assoc] at hroom
    obtain ⟨s₁, hfs, hs₁⟩ := hf.fits s p b hs (by omega)
    have hlength : (overwrite b p (enc p)).length = b.length := length_overwrite (by omega)
    obtain ⟨s₂, hgs, hs₂⟩ := hg.fits s₁ _ _ hs₁ (by omega)
    rw [overwrite_overwrite _ _ (hs.le b rfl), Nat.add_assoc, ← List.length_append] at hs₂
    exact ⟨s₂, by rw [hfs]; exact hgs, hs₂⟩
  exceeds s p b hs hroom := by
    rw [List.length_append, ← Nat.add_assoc] at hroom
    by_cases hfirst : p + (enc p).length ≤ b.length
    · obtain ⟨s₁, hfs, hs₁⟩ := hf.fits s p b hs hfirst
      have hlength : (overwrite b p (enc p)).length = b.length := length_overwrite hfirst
      rw [hfs]
      exact hg.exceeds s₁ _ _ hs₁ (by omega)
    · rw [hf.exceeds s p b hs (by omega)]
      rfl

theorem Reads.bind {α β : Type} {f : CdrStream → Option (α × CdrStream)}
    {g : CdrStream → Option (β × CdrStream)} {c : Codec α} {d : Codec β}
    (hf : Reads native o f c) (hg : Reads native o g d) :
    Reads native o (fun s => f s >>= fun r => g r.2 >>= fun t => some ((r.1, t.1), t.2))
      (c.prod d) where
  accepts s p b v q hs hread := by
    simp only [Codec.prod, Option.bind_eq_bind, Option.bind_eq_some_iff] at hread
    obtain ⟨⟨v₁, p₁⟩, h₁, ⟨v₂, p₂⟩, h₂, hread⟩ := hread
    cases hread
    obtain ⟨s₁, hfs, hs₁⟩ := hf.accepts s p b v₁ p₁ hs h₁
    obtain ⟨s₂, hgs, hs₂⟩ := hg.accepts s₁ p₁ b v₂ p₂ hs₁ h₂
    refine ⟨s₂, ?_, hs₂⟩
    show (f s >>= fun r => g r.2 >>= fun t => some ((r.1, t.1), t.2)) = _
    rw [hfs, Option.bind_eq_bind, Option.bind_some, hgs]
    rfl
  rejects s p b hs hread := by
    show (f s >>= fun r => g r.2 >>= fun t => some ((r.1, t.1), t.2)) = none
    cases h₁ : c.decode b p with
    | none => rw [hf.rejects s p b hs h₁]; rfl
    | some r =>
      obtain ⟨s₁, hfs, hs₁⟩ := hf.accepts s p b r.1 r.2 hs h₁
      have h₂ : d.decode b r.2 = none := by
        simp only [Codec.prod, h₁, Option.bind_eq_bind, Option.bind_some] at hread
        cases h : d.decode b r.2 with
        | none => rfl
        | some t => rw [h] at hread; cases hread
      rw [hfs, Option.bind_eq_bind, Option.bind_some, hg.rejects s₁ _ b hs₁ h₂]
      rfl

theorem Reads.congr {α : Type} {f g : CdrStream → Option (α × CdrStream)} {c : Codec α}
    (hf : Reads native o f c) (h : ∀ s, g s = f s) : Reads native o g c := by
  rw [funext h]
  exact hf

theorem Reads.map {α β : Type} {f : CdrStream → Option (α × CdrStream)} {c : Codec α}
    (hf : Reads native o f c) (g : α → β) (g' : β → α) (hgg' : ∀ b, g (g' b) = b)
    (hg'g : ∀ a, c.Fits a → g' (g a) = a) :
    Reads native o (fun s => (f s).map fun r => (g r.1, r.2)) (c.map g g' hgg' hg'g) where
  accepts s p b v q hs hread := by
    obtain ⟨⟨v', q'⟩, hr, hread⟩ := Option.map_eq_some_iff.mp hread
    cases hread
    obtain ⟨s₁, hfs, hs₁⟩ := hf.accepts s p b v' q' hs hr
    exact ⟨s₁, by rw [hfs]; rfl, hs₁⟩
  rejects s p b hs hread := by
    rw [hf.rejects s p b hs (Option.map_eq_none_iff.mp hread)]
    rfl

theorem Moves.bind {f g : CdrStream → Option CdrStream} {enc enc' : ℕ → List UInt8}
    (hf : Moves native o f enc) (hg : Moves native o g enc') :
    Moves native o (fun s => f s >>= g) (fun p => enc p ++ enc' (p + (enc p).length)) := by
  intro s p hs
  obtain ⟨s₁, hfs, hs₁⟩ := hf s p hs
  obtain ⟨s₂, hgs, hs₂⟩ := hg s₁ _ hs₁
  rw [Nat.add_assoc, ← List.length_append] at hs₂
  refine ⟨s₂, ?_, hs₂⟩
  show (f s >>= g) = some s₂
  rw [hfs]
  exact hgs

end Modes

section Numbers

variable {e : Engine} {native o : Endianness}

theorem stored_eq {k : ℕ} (hk : WordSize k) (w : ℕ) :
    stored native (decide (native ≠ o)) k w = o.order (wordBytes k w) := by
  unfold stored
  by_cases h : native = o
  · simp [h]
  · rw [if_pos (decide_eq_true h), wordBytes_byteSwap hk, order_reverse, order_of_ne h]

theorem loaded_eq {k : ℕ} (hk : WordSize k) {n : ℕ} {bs : List UInt8} (h : k * n ≤ bs.length) :
    loaded native (decide (native ≠ o)) k n bs = takeWords o k n bs := by
  unfold loaded
  by_cases hne : native = o
  · simp [hne]
  simp only [decide_eq_true hne, if_true]
  induction n generalizing bs with
  | zero => rfl
  | succ n ih =>
    rw [Nat.mul_succ] at h
    have hlength : (native.order (bs.take k)).length = k := by
      rw [length_order, List.length_take]
      omega
    rw [takeWords, takeWords, List.map_cons, byteSwap_wordValue hk hlength, order_of_ne hne,
      ih (by rw [List.length_drop]; omega)]

theorem WordSize.pos {k : ℕ} (hk : WordSize k) : 0 < k := by
  rcases hk with rfl | rfl | rfl | rfl <;> decide

theorem WordSize.le {k : ℕ} (hk : WordSize k) : k ≤ 8 := by
  rcases hk with rfl | rfl | rfl | rfl <;> decide

theorem Ready.align {s : CdrStream} {p k : ℕ} {held : Option (List UInt8)} (he : e.Documented)
    (hs : Ready native o s p held) (hk : WordSize k)
    (hroom : ∀ b, held = some b → p + padding p k ≤ b.length) (addZeroes : Bool) :
    e.align s k addZeroes = some (s.aligned p k addZeroes) :=
  he.align_of_fits s k addZeroes p hs.position hs.alignment hk.pos (hs.maxAlignment ▸ hk.le)
    (hs.buffer ▸ hroom)

theorem Ready.align_eq_none {s : CdrStream} {p k : ℕ} {b : List UInt8} (he : e.Documented)
    (hs : Ready native o s p (some b)) (hk : WordSize k) (hroom : b.length < p + padding p k)
    (addZeroes : Bool) : e.align s k addZeroes = none :=
  he.align_of_exceeds s k addZeroes p b hs.position hs.alignment hk.pos
    (hs.maxAlignment ▸ hk.le) hs.buffer hroom

/-- Once the cursor stands at a multiple of `k`, `k` is its alignment. -/
theorem Ready.moved {s : CdrStream} {p k n : ℕ} {held : Option (List UInt8)}
    (hs : Ready native o s p held) (held' : Option (List UInt8)) (hk : WordSize k)
    (hle : ∀ b, held' = some b → p + (padding p k + k * n) ≤ b.length) :
    Ready native o { s with
      position := some (p + (padding p k + k * n))
      alignment := k
      buffer := held' } (p + (padding p k + k * n)) held' where
  order := hs.order
  swap := hs.swap
  position := rfl
  alignment := by
    rw [← Nat.add_assoc]
    exact Nat.dvd_add (dvd_add_padding p hk.pos) (Nat.dvd_mul_right k n)
  maxAlignment := hs.maxAlignment
  buffer := rfl
  status := hs.status
  faultMask := hs.faultMask
  le := hle

/-- A write, with the room for it decided. -/
theorem write_eq {s : CdrStream} {p k : ℕ} {b : List UInt8} (he : e.Documented) (hk : WordSize k)
    (hs : Ready native o s p (some b)) (ws : List ℕ) :
    write e native s k ws =
      if p + (padding p k + k * ws.length) ≤ b.length then
        some { s with
          position := some (p + (padding p k + k * ws.length))
          alignment := k
          buffer := some (overwrite b p ((Codec.words o k ws.length).encode p ws)) }
      else none := by
  have hbytes : ws.flatMap (stored native s.swap k) = putWords o k ws := by
    rw [hs.swap, putWords]
    exact congrArg (ws.flatMap ·) (funext fun w => stored_eq hk w)
  by_cases hpad : p + padding p k ≤ b.length
  · have halign := hs.align he hk (fun _ h => by cases h; exact hpad) true
    have hzeroes : (s.aligned p k true).buffer =
        some (overwrite b p (List.replicate (padding p k) 0)) := by
      simp [CdrStream.aligned, hs.buffer]
    have hlength : (overwrite b p (List.replicate (padding p k) 0)).length = b.length :=
      length_overwrite (by rwa [List.length_replicate])
    have hroom := he.bytesAvailable_iff (s.aligned p k true) (k * ws.length) (p + padding p k) _
      rfl hzeroes
    have hwritten := overwrite_overwrite (List.replicate (padding p k) 0) (putWords o k ws)
      (hs.le b rfl)
    rw [List.length_replicate] at hwritten
    rw [hlength] at hroom
    simp only [write, hs.position, halign, Option.bind_eq_bind, Option.bind_some, hroom,
      ← Nat.add_assoc]
    congr 1
    show ((s.aligned p k true).put (ws.flatMap (stored native s.swap k))).bind _ = _
    rw [hbytes, CdrStream.put, hzeroes]
    show some _ = some _
    simp [CdrStream.aligned, CdrStream.incrPosition, hwritten, Codec.words]
  · rw [if_neg (by omega)]
    simp [write, hs.position, hs.align_eq_none he hk (by omega)]

theorem writes_write (native o : Endianness) {k : ℕ} (he : e.Documented) (hk : WordSize k)
    (ws : List ℕ) :
    Writes native o (fun s => write e native s k ws)
      (fun p => (Codec.words o k ws.length).encode p ws) where
  fits s p b hs hroom := by
    rw [Codec.length_encode_words] at hroom ⊢
    refine ⟨_, by rw [write_eq he hk hs, if_pos hroom], hs.moved _ hk fun _ h => ?_⟩
    cases h
    rwa [length_overwrite]
    rwa [Codec.length_encode_words]
  exceeds s p b hs hroom := by
    rw [Codec.length_encode_words] at hroom
    rw [write_eq he hk hs, if_neg (by omega)]

/-- A read, with the bytes for it decided. -/
theorem read_eq {s : CdrStream} {p k : ℕ} {b : List UInt8} (he : e.Documented) (hk : WordSize k)
    (hs : Ready native o s p (some b)) (n : ℕ) :
    read e native s k n = ((Codec.words o k n).decode b p).map fun r =>
      (r.1, { s with position := some r.2, alignment := k, buffer := some b }) := by
  by_cases hpad : p + padding p k ≤ b.length
  · have halign := hs.align he hk (fun _ h => by cases h; exact hpad) false
    have hbuffer : (s.aligned p k false).buffer = some b := hs.buffer
    have hroom := he.bytesAvailable_iff (s.aligned p k false) (k * n) (p + padding p k) _
      rfl hbuffer
    simp only [read, hs.position, halign, Option.bind_eq_bind, Option.bind_some, hroom,
      Codec.words]
    split
    · rename_i hfit
      have hpeek : (s.aligned p k false).peek (k * n) =
          some ((b.drop (p + padding p k)).take (k * n)) := by
        simp [CdrStream.peek, CdrStream.aligned, hs.buffer, hfit]
      have hlength : ((b.drop (p + padding p k)).take (k * n)).length = k * n := by
        rw [List.length_take, List.length_drop]
        omega
      have hloaded : loaded native s.swap k n ((b.drop (p + padding p k)).take (k * n)) =
          takeWords o k n (b.drop (p + padding p k)) := by
        rw [hs.swap, loaded_eq hk (Nat.le_of_eq hlength.symm),
          ← takeWords_append o (Nat.le_of_eq hlength.symm)
            ((b.drop (p + padding p k)).drop (k * n)),
          List.take_append_drop]
      rw [hpeek, Option.bind_some]
      show some (loaded native s.swap k n _, _) = _
      rw [hloaded, Option.map_some, ← hs.buffer]
      rfl
    · rfl
  · have hdecode : (Codec.words o k n).decode b p = none := if_neg (by omega)
    rw [hdecode]
    simp [read, hs.position, hs.align_eq_none he hk (by omega)]

theorem reads_read (native o : Endianness) {k : ℕ} (he : e.Documented) (hk : WordSize k) (n : ℕ) :
    Reads native o (fun s => read e native s k n) (Codec.words o k n) where
  accepts s p b v q hs hread := by
    obtain ⟨⟨hlength, -⟩, rfl, hend⟩ := (Codec.words o k n).decode_end b p v q hread
    subst hlength
    rw [Codec.length_encode_words] at hend hread ⊢
    exact ⟨_, by rw [read_eq he hk hs, hread]; rfl,
      hs.moved _ hk fun _ h => by cases h; exact hend⟩
  rejects s p b hs hread := by
    rw [read_eq he hk hs, hread]
    rfl

theorem moves_move (native o : Endianness) {k : ℕ} (he : e.Documented) (hk : WordSize k)
    (ws : List ℕ) :
    Moves native o (fun s => move e s k ws.length)
      (fun p => (Codec.words o k ws.length).encode p ws) := by
  intro s p hs
  rw [Codec.length_encode_words]
  refine ⟨_, ?_, hs.moved _ hk fun _ h => nomatch h⟩
  have halign := hs.align he hk (fun _ h => nomatch h) false
  simp only [move, hs.position, halign, Option.bind_eq_bind, Option.bind_some]
  simp [CdrStream.aligned, CdrStream.incrPosition, hs.buffer, Nat.add_assoc]

end Numbers

section Strings

variable {e : Engine} {native o : Endianness}

/-- Behind characters the cursor stands anywhere. -/
theorem Ready.behindChars {s : CdrStream} {p n : ℕ} {held : Option (List UInt8)}
    (hs : Ready native o s p held) (held' : Option (List UInt8))
    (hle : ∀ b, held' = some b → p + n ≤ b.length) :
    Ready native o { s with position := some (p + n), alignment := 1, buffer := held' }
      (p + n) held' where
  order := hs.order
  swap := hs.swap
  position := rfl
  alignment := Nat.one_dvd _
  maxAlignment := hs.maxAlignment
  buffer := rfl
  status := hs.status
  faultMask := hs.faultMask
  le := hle

/-- The part of the string functions behind the count. -/
def putChars (e : Engine) (bs : List UInt8) (s : CdrStream) : Option CdrStream :=
  if e.bytesAvailable s bs.length then
    (s.put bs).map fun s => { s.incrPosition bs.length with alignment := 1 }
  else none

theorem writes_putChars (he : e.Documented) (bs : List UInt8) :
    Writes native o (putChars e bs) (fun _ => bs) where
  fits s p b hs hroom := by
    have hput : putChars e bs s = some { s with
        position := some (p + bs.length), alignment := 1, buffer := some (overwrite b p bs) } := by
      rw [putChars, if_pos ((he.bytesAvailable_iff s _ p b hs.position hs.buffer).mpr hroom)]
      simp [CdrStream.put, CdrStream.incrPosition, hs.position, hs.buffer]
    refine ⟨_, hput, hs.behindChars _ fun _ h => ?_⟩
    cases h
    rwa [length_overwrite hroom]
  exceeds s p b hs hroom := by
    have hbytes := he.bytesAvailable_iff s bs.length p b hs.position hs.buffer
    rw [putChars, if_neg fun h => by have := hbytes.mp h; omega]

theorem encode_string (p : ℕ) (str : List UInt8) : (Codec.string o).encode p str =
    (Codec.words o 4 1).encode p [(str.length + 1) % 2 ^ 32] ++ (str ++ [0]) := rfl

theorem wordSize_four : WordSize 4 := Or.inr (Or.inr (Or.inl rfl))

theorem wordSize_eight : WordSize 8 := Or.inr (Or.inr (Or.inr rfl))

theorem writeString_eq {s : CdrStream} {p n : ℕ} {held : Option (List UInt8)}
    (hs : Ready native o s p held) {str : List UInt8} (hn : n = 0 ∨ str.length ≤ n) :
    writeString e native s str n =
      write e native s 4 [(str.length + 1) % 2 ^ 32] >>= putChars e (str ++ [0]) := by
  have hbound : ¬ (n ≠ 0 ∧ n + 1 < str.length + 1) := by omega
  simp only [writeString, hs.position, Option.bind_eq_bind, Option.bind_some, if_neg hbound,
    Bool.false_eq_true, if_false]
  congr 1
  funext s₁
  simp only [putChars, List.length_append, List.length_singleton]
  split
  · rw [Option.map_eq_bind]
    rfl
  · rfl

/-- A string within its bound is written as the codec writes it. -/
theorem writes_writeString (he : e.Documented) (str : List UInt8) {n : ℕ}
    (hn : n = 0 ∨ str.length ≤ n) :
    Writes native o (fun s => writeString e native s str n)
      (fun p => (Codec.string o).encode p str) := by
  have hparts := (writes_write native o he wordSize_four
    [(str.length + 1) % 2 ^ 32]).bind (writes_putChars he (str ++ [0]))
  constructor
  · intro s p b hs hroom
    rw [writeString_eq hs hn]
    exact hparts.fits s p b hs hroom
  · intro s p b hs hroom
    rw [writeString_eq hs hn]
    exact hparts.exceeds s p b hs hroom

theorem moves_moveString (he : e.Documented) (str : List UInt8) {n : ℕ}
    (hn : n = 0 ∨ str.length ≤ n) :
    Moves native o (fun s => moveString e s str n) (fun p => (Codec.string o).encode p str) := by
  intro s p hs
  have hbound : ¬ (n ≠ 0 ∧ n + 1 < str.length + 1) := by omega
  obtain ⟨s₁, hmove, hs₁⟩ := moves_move native o he wordSize_four [(str.length + 1) % 2 ^ 32] s p hs
  have hmove' : move e s 4 1 = some s₁ := hmove
  have hchars := hs₁.behindChars (n := str.length + 1) none fun _ h => by cases h
  show ∃ s', moveString e s str n = some s' ∧
    Ready native o s' (p + ((Codec.string o).encode p str).length) none
  rw [encode_string, List.length_append, List.length_append, List.length_singleton,
    ← Nat.add_assoc]
  refine ⟨_, ?_, hchars⟩
  simp only [moveString, hs.position, if_neg hbound, hmove']
  simp [CdrStream.incrPosition, hs₁.position, hs₁.buffer]

/-- A single number is read as its word. -/
theorem reads_word (native o : Endianness) {k : ℕ} (he : e.Documented) (hk : WordSize k) :
    Reads native o (fun s => (read e native s k 1).map fun r => (r.1.headD 0, r.2))
      (Codec.word o k) :=
  (reads_read native o he hk 1).map (fun ws => ws.headD 0) _ _ _

/-- The count has been read; the characters are there or are not. -/
theorem readString_eq {s s₁ : CdrStream} {p q length : ℕ} {b : List UInt8} (he : e.Documented)
    (hs : Ready native o s p (some b)) (hread : read e native s 4 1 = some ([length], s₁))
    (hs₁ : Ready native o s₁ q (some b)) (hlength : length < 2 ^ 32) :
    readString e native s 0 = if q + length ≤ b.length ∧ length ≠ 0 then
        some ((b.drop q).take (length - 1),
          { s₁ with position := some (q + length), alignment := 1, buffer := some b })
      else none := by
  have hbytes := he.bytesAvailable_iff s₁ length q b hs₁.position hs₁.buffer
  simp only [readString, hs.position, hread, Option.bind_eq_bind, Option.bind_some,
    List.headD_cons, hbytes]
  by_cases hroom : q + length ≤ b.length
  · by_cases hzero : length = 0
    · simp [hzero, CdrStream.addStatus, hs₁.status, hs₁.faultMask, CdrStream.illegalFieldValue]
    · have htoread : min ((length + (2 ^ 32 - 1)) % 2 ^ 32) (2 ^ 64 - 1) = length - 1 := by omega
      have hpeek : s₁.peek (length - 1) = some ((b.drop q).take (length - 1)) := by
        have hless : q + (length - 1) ≤ b.length := by omega
        simp [CdrStream.peek, hs₁.position, hs₁.buffer, hless]
      simp only [hroom, hzero, htoread, hpeek, ↓reduceIte]
      simp [hzero, CdrStream.incrPosition, hs₁.position, hs₁.buffer]
  · simp only [hroom, false_and, ↓reduceIte]

/-- A count that is read is a single word of four bytes. -/
theorem decode_count {b : List UInt8} {p q : ℕ} {ws : List ℕ}
    (h : (Codec.words o 4 1).decode b p = some (ws, q)) :
    ∃ w, ws = [w] ∧ w < 2 ^ 32 ∧ (Codec.word o 4).decode b p = some (w, q) := by
  obtain ⟨⟨hlength, hlt⟩, -⟩ := (Codec.words o 4 1).decode_end b p ws q h
  obtain ⟨w, rfl⟩ := List.length_eq_one_iff.mp hlength
  refine ⟨w, rfl, hlt w List.mem_cons_self, ?_⟩
  show ((Codec.words o 4 1).decode b p).map _ = _
  rw [h]
  rfl

/-- Without its count there is no string. -/
theorem takeString_of_no_count {b : List UInt8} {p : ℕ}
    (h : (Codec.words o 4 1).decode b p = none) : (Codec.string o).decode b p = none := by
  have hword : (Codec.word o 4).decode b p = none := by
    show ((Codec.words o 4 1).decode b p).map _ = none
    rw [h]
    rfl
  show (Codec.counted o b p >>= Codec.dropNull) = none
  rw [Codec.counted, hword]
  rfl

/-- A string is read as the codec reads it. -/
theorem reads_readString (he : e.Documented) :
    Reads native o (fun s => readString e native s 0) (Codec.string o) := by
  have hcount := reads_read native o he wordSize_four 1
  constructor
  · intro s p b v q hs hread
    cases hwords : (Codec.words o 4 1).decode b p with
    | none => rw [takeString_of_no_count hwords] at hread; cases hread
    | some r =>
      obtain ⟨ws, p₁⟩ := r
      obtain ⟨w, rfl, hw, hword⟩ := decode_count hwords
      obtain ⟨s₁, hs₁, hready⟩ := hcount.accepts s p b _ p₁ hs hwords
      have hstring : Codec.takeString o b p = some (v, q) := hread
      rw [Codec.takeString_eq o hword] at hstring
      split at hstring
      · rename_i hfit
        cases hstring
        refine ⟨_, by rw [readString_eq he hs hs₁ hready hw, if_pos hfit], ?_⟩
        exact hready.behindChars _ fun _ h => by cases h; exact hfit.1
      · cases hstring
  · intro s p b hs hread
    cases hwords : (Codec.words o 4 1).decode b p with
    | none =>
      have hnone : read e native s 4 1 = none := hcount.rejects s p b hs hwords
      simp [readString, hs.position, hnone]
    | some r =>
      obtain ⟨ws, p₁⟩ := r
      obtain ⟨w, rfl, hw, hword⟩ := decode_count hwords
      obtain ⟨s₁, hs₁, hready⟩ := hcount.accepts s p b _ p₁ hs hwords
      have hstring : Codec.takeString o b p = none := hread
      rw [Codec.takeString_eq o hword] at hstring
      rw [readString_eq he hs hs₁ hready hw]
      split at hstring
      · cases hstring
      · rw [if_neg ‹_›]

end Strings

end DdsBenchmark.Wire
