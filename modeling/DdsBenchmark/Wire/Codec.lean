import DdsBenchmark.Wire.Words

/-! Codecs for aligned binary formats. A codec writes a value at a position, since padding depends
on it, and reads a value out of a buffer from a position on. It carries its laws: what it writes
it reads back, what it reads does not depend on what follows, and it moves by the length of what
it would write. Pairs of codecs are codecs. -/

namespace DdsBenchmark.Wire

/-- The number of bytes from position `p` to the next multiple of `a`. -/
def padding (p a : ℕ) : ℕ := (a - p % a) % a

theorem dvd_add_padding (p : ℕ) {a : ℕ} (ha : 0 < a) : a ∣ p + padding p a := by
  have hp := Nat.mod_lt p ha
  apply Nat.dvd_of_mod_eq_zero
  unfold padding
  rcases Nat.eq_zero_or_pos (p % a) with h0 | h0
  · simp [h0]
  · have hsum : p % a + (a - p % a) = a := by omega
    rw [Nat.mod_eq_of_lt (by omega : a - p % a < a), Nat.add_mod, Nat.mod_eq_of_lt
      (by omega : a - p % a < a), hsum, Nat.mod_self]

theorem padding_lt (p : ℕ) {a : ℕ} (ha : 0 < a) : padding p a < a := Nat.mod_lt _ ha

theorem padding_eq_zero_of_dvd {p a : ℕ} (h : a ∣ p) : padding p a = 0 := by
  simp [padding, Nat.mod_eq_zero_of_dvd h]

structure Codec (α : Type) where
  encode : ℕ → α → List UInt8
  decode : List UInt8 → ℕ → Option (α × ℕ)
  /-- The values whose lengths the format can hold. -/
  Fits : α → Prop
  decode_encode : ∀ before v after, Fits v →
    decode (before ++ (encode before.length v ++ after)) before.length =
      some (v, before.length + (encode before.length v).length)
  decode_append : ∀ b p v q c, decode b p = some (v, q) → decode (b ++ c) p = some (v, q)
  decode_end : ∀ b p v q, decode b p = some (v, q) →
    Fits v ∧ q = p + (encode p v).length ∧ q ≤ b.length

namespace Codec

variable {α β : Type}

section Laws

variable (c : Codec α)

/-- A value that fits is read back, whatever stands before and behind it. -/
theorem decode_at {p : ℕ} {b : List UInt8} {v : α} (hv : c.Fits v)
    (hb : (c.encode p v) <+: b.drop p) (hp : p ≤ b.length) :
    c.decode b p = some (v, p + (c.encode p v).length) := by
  obtain ⟨after, hafter⟩ := hb
  have hlength : (b.take p).length = p := List.length_take_of_le hp
  have hdecode := c.decode_encode (b.take p) v after hv
  rwa [hlength, hafter, List.take_append_drop] at hdecode

end Laws

/-- One value behind the other. -/
def prod (c : Codec α) (d : Codec β) : Codec (α × β) where
  encode p v := c.encode p v.1 ++ d.encode (p + (c.encode p v.1).length) v.2
  decode b p := c.decode b p >>= fun r => d.decode b r.2 >>= fun t => some ((r.1, t.1), t.2)
  Fits v := c.Fits v.1 ∧ d.Fits v.2
  decode_encode before v after hv := by
    have hfirst := c.decode_encode before v.1
      (d.encode (before.length + (c.encode before.length v.1).length) v.2 ++ after) hv.1
    have hsecond := d.decode_encode (before ++ c.encode before.length v.1) v.2 after hv.2
    rw [List.length_append] at hsecond
    simp only [List.append_assoc] at hsecond ⊢
    rw [hfirst]
    simp only [Option.bind_eq_bind, Option.bind_some, hsecond, List.length_append, Nat.add_assoc]
  decode_append b p v q e h := by
    simp only [Option.bind_eq_bind, Option.bind_eq_some_iff] at h ⊢
    obtain ⟨⟨v₁, p₁⟩, h₁, ⟨v₂, p₂⟩, h₂, h⟩ := h
    exact ⟨_, c.decode_append _ _ _ _ e h₁, _, d.decode_append _ _ _ _ e h₂, h⟩
  decode_end b p v q h := by
    simp only [Option.bind_eq_bind, Option.bind_eq_some_iff] at h
    obtain ⟨⟨v₁, p₁⟩, h₁, ⟨v₂, p₂⟩, h₂, h⟩ := h
    cases h
    obtain ⟨hfits₁, rfl, -⟩ := c.decode_end _ _ _ _ h₁
    obtain ⟨hfits₂, rfl, hend⟩ := d.decode_end _ _ _ _ h₂
    exact ⟨⟨hfits₁, hfits₂⟩, by rw [List.length_append, Nat.add_assoc], hend⟩

/-- The same bytes read as values of another type. -/
def map (c : Codec α) (f : α → β) (g : β → α) (hfg : ∀ b, f (g b) = b)
    (hgf : ∀ a, c.Fits a → g (f a) = a) : Codec β where
  encode p v := c.encode p (g v)
  decode b p := (c.decode b p).map fun r => (f r.1, r.2)
  Fits v := c.Fits (g v)
  decode_encode before v after hv := by
    rw [c.decode_encode before (g v) after hv]
    simp [hfg]
  decode_append b p v q e h := by
    obtain ⟨r, hr, h⟩ := Option.map_eq_some_iff.mp h
    rw [c.decode_append b p r.1 r.2 e hr, Option.map_some, h]
  decode_end b p v q h := by
    obtain ⟨⟨a, q'⟩, hr, h⟩ := Option.map_eq_some_iff.mp h
    cases h
    have hend := c.decode_end b p a q' hr
    rwa [hgf a hend.1]

end Codec

end DdsBenchmark.Wire
