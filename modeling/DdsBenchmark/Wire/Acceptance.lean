import DdsBenchmark.Wire.RoundTrip

/-! Which buffers are large enough to serialize into, and which hold a sample. -/

namespace DdsBenchmark.Wire

section Room

/-- A text is measured anew with every sample. -/
theorem sertypeGetSerializedSize_string (h : Host (List UInt8)) (he : h.engine.Documented)
    (kept : Option ℕ) (sample : TestData) :
    sertypeGetSerializedSize stringBaggage h kept sample =
      cdrHeaderSize + (body Codec.string h.native sample).length := by
  have hsize := size_moveTest h.native h.native he stringBaggage_follows sample
  obtain ⟨s, hmove, hs⟩ := Option.map_eq_some_iff.mp hsize
  have hanew : getSerializedSize stringBaggage h kept sample =
      (moveTest stringBaggage h.engine (basicCdrStream h.native h.native) sample).map
        fun s => (s.size, kept) := if_neg Bool.false_ne_true
  rw [sertypeGetSerializedSize, hanew, hmove, Option.map_some, hs, Nat.add_comm]

/-- Of the sizes that have room for a header, the size announced for a sample is the least one
with which it can be serialized, and nothing behind it is touched. -/
theorem serializeInto_room (h : Host (List UInt8)) (he : h.engine.Documented) (kept : Option ℕ)
    (sample : TestData) (buffer : List UInt8) {bufSz : ℕ} (hsize : cdrHeaderSize ≤ bufSz)
    (hbuffer : bufSz ≤ buffer.length) :
    (sertypeGetSerializedSize stringBaggage h kept sample ≤ bufSz →
      ∃ out, serializeInto stringBaggage h buffer bufSz sample = some out ∧
        out.length = buffer.length ∧
        out.drop (sertypeGetSerializedSize stringBaggage h kept sample) =
          buffer.drop (sertypeGetSerializedSize stringBaggage h kept sample)) ∧
    (bufSz < sertypeGetSerializedSize stringBaggage h kept sample →
      serializeInto stringBaggage h buffer bufSz sample = none) := by
  have hserialize := serializeInto_eq h he stringBaggage_follows sample hsize hbuffer
  rw [sertypeGetSerializedSize_string h he, hserialize]
  constructor
  · intro hroom
    have hfront : (header h.native bufSz ++ body Codec.string h.native sample).length =
        cdrHeaderSize + (body Codec.string h.native sample).length := by
      rw [List.length_append]
      rfl
    refine ⟨_, if_pos hroom, ?_, List.drop_left' hfront⟩
    rw [List.length_append, hfront, List.length_drop]
    omega
  · intro hroom
    rw [if_neg (by omega)]

/-- A text of one character takes 26 bytes: with 30 of 32 there is room, with 25 there is not. -/
theorem serializeInto_room_one_character :
    (∃ out, serializeInto stringBaggage (littleHost _) (List.replicate 32 0) 30 ⟨1, 2, [116]⟩ =
        some out ∧ out.length = 32 ∧ out.drop 26 = List.replicate 6 0) ∧
      serializeInto stringBaggage (littleHost _) (List.replicate 32 0) 25 ⟨1, 2, [116]⟩ = none := by
  have hannounced : sertypeGetSerializedSize stringBaggage (littleHost _) none ⟨1, 2, [116]⟩ =
      26 := by decide
  have hlarge := (serializeInto_room (littleHost _) plainEngine_documented none ⟨1, 2, [116]⟩
    (List.replicate 32 0) (show cdrHeaderSize ≤ 30 by decide) (by decide)).1
  have hsmall := (serializeInto_room (littleHost _) plainEngine_documented none ⟨1, 2, [116]⟩
    (List.replicate 32 0) (show cdrHeaderSize ≤ 25 by decide) (by decide)).2
  rw [hannounced] at hlarge hsmall
  exact ⟨hlarge (by decide), hsmall (by decide)⟩

end Room

section Accepted

theorem lt_two_of_and_eq_zero : ∀ n : Fin 256, n.val &&& 254 = 0 → n.val < 2 := by
  decide +kernel

/-- Without the bit for the byte order, the byte of a plain stream is zero. -/
theorem eq_encodingByte {b : UInt8} (h : b &&& ~~~boLittle = plainCdr) :
    ∃ o, b = encodingByte o := by
  have hand : b.toNat &&& 254 = 0 := congrArg UInt8.toNat h
  have hlt := lt_two_of_and_eq_zero ⟨b.toNat, b.toNat_lt⟩ hand
  have hcases : b.toNat = 0 ∨ b.toNat = 1 := by
    have hlt' : b.toNat < 2 := hlt
    omega
  rcases hcases with hb | hb
  · exact ⟨.bigEndian, UInt8.toNat_inj.mp hb⟩
  · exact ⟨.littleEndian, UInt8.toNat_inj.mp hb⟩

theorem readHeader_eq_basicCdr_iff {b₀ b₁ b₂ b₃ : UInt8} {rest : List UInt8}
    (hsize : cdrHeaderSize ≤ ([b₀, b₁, b₂, b₃] ++ rest).length) (o : Endianness) :
    readHeader ([b₀, b₁, b₂, b₃] ++ rest) hsize = some (.basicCdr, o) ↔ b₁ = encodingByte o := by
  show encodingOf b₁ = _ ↔ _
  constructor
  · intro h
    simp only [encodingOf] at h
    split at h
    · rename_i hplain
      obtain ⟨o', rfl⟩ := eq_encodingByte hplain
      revert h
      cases o <;> cases o' <;> decide
    · split at h <;> cases h
  · rintro rfl
    cases o <;> rfl

theorem exists_header {buffer : List UInt8} (hsize : cdrHeaderSize ≤ buffer.length) :
    ∃ b₀ b₁ b₂ b₃ rest, buffer = [b₀, b₁, b₂, b₃] ++ rest := by
  match buffer with
  | b₀ :: b₁ :: b₂ :: b₃ :: rest => exact ⟨b₀, b₁, b₂, b₃, rest, rfl⟩
  | [] | [_] | [_, _] | [_, _, _] => exact absurd hsize (by simp [cdrHeaderSize])

/-- The streams that hold a message with a text. -/
theorem exists_decode_iff (o : Endianness) (b : List UInt8) (sample : TestData) :
    (∃ q, (Codec.message o (Codec.string o)).decode b 0 = some (sample, q)) ↔
      sample.baggage.length + 1 < 2 ^ 32 ∧ ∃ last rest,
        b = o.order (wordBytes 8 sample.seq.toNat) ++
          (o.order (wordBytes 8 sample.timestamp.toNat) ++
            (o.order (wordBytes 4 (sample.baggage.length + 1)) ++
              (sample.baggage ++ last :: rest))) := by
  have hnumbers (tail : List UInt8) : (o.order (wordBytes 8 sample.seq.toNat) ++
      (o.order (wordBytes 8 sample.timestamp.toNat) ++ tail)).length = 16 + tail.length := by
    simp only [List.length_append, length_order, length_wordBytes]
    omega
  constructor
  · rintro ⟨q, h⟩
    obtain ⟨hb, hpayload⟩ := (Codec.decode_message_iff o _).mp h
    have hlength : 16 ≤ b.length := by
      rw [hb, hnumbers]
      exact Nat.le_add_right _ _
    obtain ⟨hfits, -, last, hbytes⟩ :=
      (Codec.decode_string_iff o (by decide) hlength).mp hpayload
    exact ⟨hfits, last, b.drop q, by rw [← hbytes]; exact hb⟩
  · rintro ⟨hfits, last, rest, hb⟩
    have hdrop : b.drop 16 = o.order (wordBytes 4 (sample.baggage.length + 1)) ++
        (sample.baggage ++ last :: rest) := by
      rw [hb, ← List.append_assoc]
      apply List.drop_left'
      simp only [List.length_append, length_order, length_wordBytes]
    have hlength : 16 ≤ b.length := by
      rw [hb, hnumbers]
      exact Nat.le_add_right _ _
    have hsplit : o.order (wordBytes 4 (sample.baggage.length + 1)) ++
        (sample.baggage ++ last :: rest) =
          o.order (wordBytes 4 (sample.baggage.length + 1)) ++ (sample.baggage ++ [last]) ++
            rest := by simp
    have hrest : b.drop (16 + 4 + (sample.baggage.length + 1)) = rest := by
      rw [Nat.add_assoc, ← List.drop_drop, hdrop, hsplit]
      apply List.drop_left'
      simp only [List.length_append, length_order, length_wordBytes, List.length_singleton]
    refine ⟨16 + 4 + (sample.baggage.length + 1), ?_⟩
    rw [Codec.decode_message_iff, hdrop, Codec.decode_string_iff o (by decide) hlength, hdrop,
      hrest]
    exact ⟨hb, hfits, rfl, last, rfl⟩

/-- The buffers with room for a header that hold a sample in the first version of the encoding:
the other bytes of the header, the byte behind the text and whatever follows may be any. -/
theorem deserialize_eq_some_iff (h : Host (List UInt8)) (he : h.engine.Documented)
    {buffer : List UInt8} (hsize : cdrHeaderSize ≤ buffer.length)
    (hbuffer : ∀ o, readHeader buffer hsize ≠ some (.xcdrV2, o)) (sample : TestData) :
    deserialize stringBaggage h buffer hsize = some sample ↔
      sample.baggage.length + 1 < 2 ^ 32 ∧ ∃ (o : Endianness) (b₀ b₂ b₃ last : UInt8)
        (rest : List UInt8), buffer = [b₀, encodingByte o, b₂, b₃] ++
          (o.order (wordBytes 8 sample.seq.toNat) ++
            (o.order (wordBytes 8 sample.timestamp.toNat) ++
              (o.order (wordBytes 4 (sample.baggage.length + 1)) ++
                (sample.baggage ++ last :: rest)))) := by
  have hdeserialize (o : Endianness) (hheader : readHeader buffer hsize = some (.basicCdr, o)) :
      deserialize stringBaggage h buffer hsize =
        ((Codec.message o (Codec.string o)).decode (buffer.drop 4) 0).map Prod.fst := by
    simp only [deserialize, hheader]
    exact readTest_eq h.native o he stringBaggage_follows _
  obtain ⟨b₀, b₁, b₂, b₃, stream, rfl⟩ := exists_header hsize
  constructor
  · intro hsample
    cases hheader : readHeader ([b₀, b₁, b₂, b₃] ++ stream) hsize with
    | none => rw [deserialize, hheader] at hsample; cases hsample
    | some r =>
      obtain ⟨v, o⟩ := r
      cases v with
      | xcdrV2 => exact absurd hheader (hbuffer o)
      | basicCdr =>
        rw [hdeserialize o hheader] at hsample
        obtain ⟨⟨v, q⟩, hdecode, hv⟩ := Option.map_eq_some_iff.mp hsample
        have hv' : v = sample := hv
        rw [hv'] at hdecode
        obtain ⟨hfits, last, rest, hbytes⟩ := (exists_decode_iff o _ sample).mp ⟨q, hdecode⟩
        obtain rfl := (readHeader_eq_basicCdr_iff hsize o).mp hheader
        refine ⟨hfits, o, b₀, b₂, b₃, last, rest, ?_⟩
        rw [← hbytes]
        rfl
  · rintro ⟨hfits, o, c₀, c₂, c₃, last, rest, hbytes⟩
    obtain ⟨hheader, hstream⟩ := List.append_inj hbytes rfl
    obtain ⟨-, hb⟩ := List.cons.inj hheader
    have hbyte := (List.cons.inj hb).1
    rw [hdeserialize o ((readHeader_eq_basicCdr_iff hsize o).mpr hbyte)]
    obtain ⟨q, hq⟩ := (exists_decode_iff o _ sample).mpr ⟨hfits, last, rest, hstream⟩
    exact congrArg (Option.map Prod.fst) hq

/-- A big-endian image on a little-endian machine; the byte behind the text is no null. -/
theorem deserialize_odd_null :
    deserialize stringBaggage (littleHost _)
      [9, 0, 9, 9, 0, 0, 0, 0, 0, 0, 0, 5, 0, 0, 0, 0, 0, 0, 0, 6, 0, 0, 0, 2, 116, 255, 8]
      (by decide) = some ⟨5, 6, [116]⟩ :=
  (deserialize_eq_some_iff (littleHost _) plainEngine_documented (by decide)
    (fun o => by cases o <;> decide) ⟨5, 6, [116]⟩).mpr
    ⟨by decide, .bigEndian, 9, 9, 9, 255, [8], by decide⟩

end Accepted

end DdsBenchmark.Wire
