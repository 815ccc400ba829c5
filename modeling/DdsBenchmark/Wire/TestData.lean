import DdsBenchmark.Wire.Streaming

/-! The message types of the benchmark and their generated streaming functions. The types differ
in the payload alone, which is a string or an array of a fixed length. -/

namespace DdsBenchmark.Wire

/-- The members of the generated classes. -/
structure TestType (β : Type) where
  seq : UInt64
  timestamp : UInt64
  baggage : β
  deriving DecidableEq

/-- What the generated code says about the member `baggage`. -/
structure Baggage (β : Type) where
  /-- What a new message holds. -/
  initial : β
  isSelfContained : Bool
  write : Engine → Endianness → CdrStream → β → Option CdrStream
  read : Engine → Endianness → CdrStream → Option (β × CdrStream)
  move : Engine → CdrStream → β → Option CdrStream

/-- `bm_test::TestData` and `bm_test::TestParameter`; the characters of a string are bytes. -/
abbrev TestData := TestType (List UInt8)

/-- `bm_test::TestFixedData` and `bm_test::TestFixedParameter`. -/
abbrev TestFixedData := TestType (Vector UInt8 1024)

/-- An array from its bytes as numbers. -/
def vectorOf (ws : List ℕ) : Vector UInt8 1024 := Vector.ofFn fun i => UInt8.ofNat (ws.getD i 0)

def stringBaggage : Baggage (List UInt8) where
  initial := []
  isSelfContained := false
  write e native s baggage := writeString e native s baggage 0
  read e native s := readString e native s 0
  move e s baggage := moveString e s baggage 0

def arrayBaggage : Baggage (Vector UInt8 1024) where
  initial := Vector.replicate 1024 0
  isSelfContained := true
  write e native s baggage := Wire.write e native s 1 (baggage.toList.map UInt8.toNat)
  read e native s := (Wire.read e native s 1 1024).map fun r => (vectorOf r.1, r.2)
  move e s _ := Wire.move e s 1 1024

/-- `get_type_props`: the depths and ids of the root and of the members. -/
def typeProps : List (ℕ × ℕ) := [(0, 0), (1, 0), (1, 1), (1, 2)]

section Generated

variable {β : Type} (bg : Baggage β) (e : Engine) (native : Endianness)

/-- The switch of `write` over the member ids. -/
def writeMember (sample : TestType β) : ℕ → CdrStream → Option CdrStream
  | 0, s => Wire.write e native s 8 [sample.seq.toNat]
  | 1, s => Wire.write e native s 8 [sample.timestamp.toNat]
  | 2, s => bg.write e native s sample.baggage
  | _, s => some s

/-- The switch of `read`, which fills in the message. -/
def readMember : ℕ → TestType β × CdrStream → Option (TestType β × CdrStream)
  | 0, (sample, s) => (Wire.read e native s 8 1).map fun r =>
    ({ sample with seq := UInt64.ofNat (r.1.headD 0) }, r.2)
  | 1, (sample, s) => (Wire.read e native s 8 1).map fun r =>
    ({ sample with timestamp := UInt64.ofNat (r.1.headD 0) }, r.2)
  | 2, (sample, s) => (bg.read e native s).map fun r => ({ sample with baggage := r.1 }, r.2)
  | _, r => some r

/-- The switch of `move`. -/
def moveMember (sample : TestType β) : ℕ → CdrStream → Option CdrStream
  | 0, s => Wire.move e s 8 1
  | 1, s => Wire.move e s 8 1
  | 2, s => bg.move e s sample.baggage
  | _, s => some s

/-- An operation of the stream while a message is being read. -/
def besides {α : Type} (f : CdrStream → Option CdrStream) (r : α × CdrStream) :
    Option (α × CdrStream) := (f r.2).map fun s => (r.1, s)

/-- `write` of a message; setting the mode resets the stream. -/
def writeTest (s : CdrStream) (sample : TestType β) : Option CdrStream :=
  streamStruct e id typeProps (writeMember bg e native sample) (e.reset s)

/-- `read` of a message into a new one. -/
def readTest (s : CdrStream) : Option (TestType β × CdrStream) :=
  streamStruct e besides typeProps (readMember bg e native) (⟨0, 0, bg.initial⟩, e.reset s)

/-- `move` over a message. -/
def moveTest (s : CdrStream) (sample : TestType β) : Option CdrStream :=
  streamStruct e id typeProps (moveMember bg e sample) (e.reset s)

end Generated

namespace Codec

variable (o : Endianness)

theorem toNat_ofNat_of_fits {w : ℕ} (h : (word o 8).Fits w) : (UInt64.ofNat w).toNat = w := by
  rw [fits_word] at h
  exact UInt64.toNat_ofNat_of_lt h

def uint64 : Codec UInt64 :=
  (word o 8).map UInt64.ofNat UInt64.toNat (fun _ => UInt64.ofNat_toNat)
    (fun _ => toNat_ofNat_of_fits o)

theorem encode_uint64 {p : ℕ} (hp : 8 ∣ p) (v : UInt64) :
    (uint64 o).encode p v = o.order (wordBytes 8 v.toNat) := by
  show List.replicate (padding p 8) 0 ++ putWords o 8 [v.toNat] = _
  simp [padding_eq_zero_of_dvd hp]

theorem vectorOf_toNat (v : Vector UInt8 1024) : vectorOf (v.toList.map UInt8.toNat) = v := by
  apply Vector.ext
  intro i hi
  simp [vectorOf]

theorem toNat_vectorOf {ws : List ℕ} (h : (words o 1 1024).Fits ws) :
    (vectorOf ws).toList.map UInt8.toNat = ws := by
  obtain ⟨hlength, hlt⟩ := h
  apply List.ext_getElem
  · simp [hlength]
  · intro i hi hi'
    have hw : ws[i] < 256 := hlt _ (List.getElem_mem hi')
    simp [vectorOf, hi', Nat.mod_eq_of_lt hw]

theorem length_map_toNat (v : Vector UInt8 1024) : (v.toList.map UInt8.toNat).length = 1024 := by
  simp

def array : Codec (Vector UInt8 1024) :=
  (words o 1 1024).map vectorOf (fun v => v.toList.map UInt8.toNat) vectorOf_toNat
    (fun _ => toNat_vectorOf o)

theorem length_encode_array (p : ℕ) (v : Vector UInt8 1024) :
    ((array o).encode p v).length = padding p 1 + 1 * 1024 := by
  have hlength := length_encode_words o 1 p (v.toList.map UInt8.toNat)
  rw [length_map_toNat] at hlength
  exact hlength

theorem fits_array (v : Vector UInt8 1024) : (array o).Fits v := by
  refine ⟨length_map_toNat v, fun w hw => ?_⟩
  obtain ⟨b, -, rfl⟩ := List.mem_map.mp hw
  exact b.toNat_lt

theorem fits_uint64 (v : UInt64) : (uint64 o).Fits v := (fits_word o).mpr v.toNat_lt

/-- A message: its members one behind the other. -/
def message {β : Type} (c : Codec β) : Codec (TestType β) :=
  ((uint64 o).prod ((uint64 o).prod c)).map (fun t => ⟨t.1, t.2.1, t.2.2⟩)
    (fun m => (m.seq, m.timestamp, m.baggage)) (fun _ => rfl) (fun _ _ => rfl)

theorem decode_uint64_iff {b : List UInt8} {p q : ℕ} {v : UInt64} (hp : 8 ∣ p)
    (hb : p ≤ b.length) :
    (uint64 o).decode b p = some (v, q) ↔
      q = p + 8 ∧ b.drop p = o.order (wordBytes 8 v.toNat) ++ b.drop q := by
  show ((word o 8).decode b p).map _ = _ ↔ _
  rw [Option.map_eq_some_iff]
  constructor
  · rintro ⟨⟨w, q'⟩, hword, h⟩
    cases h
    obtain ⟨hw, rfl, hbytes⟩ := (decode_word_iff o hp hb).mp hword
    rw [toNat_ofNat_of_fits o ((fits_word o).mpr hw)]
    exact ⟨rfl, hbytes⟩
  · rintro ⟨rfl, hbytes⟩
    refine ⟨(v.toNat, p + 8), (decode_word_iff o hp hb).mpr ⟨v.toNat_lt, rfl, hbytes⟩, ?_⟩
    rw [UInt64.ofNat_toNat]

/-- A message is read where its two numbers stand and its payload is read behind them. -/
theorem decode_message_iff {β : Type} (c : Codec β) {b : List UInt8} {m : TestType β} {q : ℕ} :
    (message o c).decode b 0 = some (m, q) ↔
      b = o.order (wordBytes 8 m.seq.toNat) ++
        (o.order (wordBytes 8 m.timestamp.toNat) ++ b.drop 16) ∧
      c.decode b 16 = some (m.baggage, q) := by
  show ((uint64 o).decode b 0 >>= fun r => ((uint64 o).decode b r.2 >>= fun t =>
    c.decode b t.2 >>= fun u => some ((t.1, u.1), u.2)) >>= fun t =>
      some ((r.1, t.1), t.2)).map _ = _ ↔ _
  constructor
  · intro h
    simp only [Option.map_eq_some_iff, Option.bind_eq_bind, Option.bind_eq_some_iff] at h
    obtain ⟨_, ⟨⟨seq, p₁⟩, h₁, _, ⟨⟨timestamp, p₂⟩, h₂, ⟨baggage, p₃⟩, h₃, hr⟩, hr'⟩, h⟩ := h
    cases hr
    cases hr'
    cases h
    obtain ⟨-, -, hend₁⟩ := (uint64 o).decode_end b 0 _ _ h₁
    obtain ⟨rfl, hseq⟩ := (decode_uint64_iff o (Nat.dvd_zero 8) (Nat.zero_le _)).mp h₁
    obtain ⟨rfl, htimestamp⟩ := (decode_uint64_iff o (Nat.dvd_refl 8) hend₁).mp h₂
    refine ⟨?_, h₃⟩
    rw [← htimestamp]
    exact hseq
  · rintro ⟨hb, hpayload⟩
    have hbytes : b.drop 8 = o.order (wordBytes 8 m.timestamp.toNat) ++ b.drop 16 := by
      have hdrop := congrArg (List.drop 8) hb
      rwa [List.drop_left' (by rw [length_order, length_wordBytes])] at hdrop
    have hlength : 8 ≤ b.length := by
      rw [hb, List.length_append, length_order, length_wordBytes]
      exact Nat.le_add_right _ _
    have hseq : (uint64 o).decode b 0 = some (m.seq, 8) := by
      rw [decode_uint64_iff o (Nat.dvd_zero 8) (Nat.zero_le _), hbytes]
      exact ⟨rfl, hb⟩
    have htimestamp : (uint64 o).decode b 8 = some (m.timestamp, 16) :=
      (decode_uint64_iff o (Nat.dvd_refl 8) hlength).mpr ⟨rfl, hbytes⟩
    simp [hseq, htimestamp, hpayload]

end Codec

/-- The streaming functions of a payload follow one codec for each byte order. -/
structure Baggage.Follows {β : Type} (bg : Baggage β) (c : Endianness → Codec β) : Prop where
  writes : ∀ {e : Engine} (native o : Endianness) (v : β), e.Documented →
    Writes native o (fun s => bg.write e native s v) ((c o).encode · v)
  reads : ∀ {e : Engine} (native o : Endianness), e.Documented →
    Reads native o (bg.read e native) (c o)
  moves : ∀ {e : Engine} (native o : Endianness) (v : β), e.Documented →
    Moves native o (fun s => bg.move e s v) ((c o).encode · v)
  /-- What can be serialized at all can be counted. -/
  fits : ∀ o p v, ((c o).encode p v).length < 2 ^ 32 → (c o).Fits v
  /-- The serialized size of a self-contained payload does not depend on it. -/
  fixed : bg.isSelfContained = true → ∀ o p v w,
    ((c o).encode p v).length = ((c o).encode p w).length

theorem stringBaggage_follows : stringBaggage.Follows Codec.string where
  writes _ _ v he := writes_writeString he v (Or.inl rfl)
  reads _ _ he := reads_readString he
  moves _ _ v he := moves_moveString he v (Or.inl rfl)
  fits o p v hlength := by
    rw [encode_string, List.length_append, List.length_append, List.length_singleton] at hlength
    show v.length + 1 < 2 ^ 32
    omega
  fixed h := by cases h

theorem wordSize_one : WordSize 1 := Or.inl rfl

theorem arrayBaggage_follows : arrayBaggage.Follows Codec.array where
  writes native o v he := by
    have hwrites := writes_write native o he wordSize_one (v.toList.map UInt8.toNat)
    rw [Codec.length_map_toNat] at hwrites
    exact hwrites
  reads native o he := (reads_read native o he wordSize_one 1024).map vectorOf _ _ _
  moves native o v he := by
    have hmoves := moves_move native o he wordSize_one (v.toList.map UInt8.toNat)
    rw [Codec.length_map_toNat] at hmoves
    exact hmoves
  fits o p v _ := Codec.fits_array o v
  fixed _ o p v w := by rw [Codec.length_encode_array, Codec.length_encode_array]

section Messages

variable {β : Type} {bg : Baggage β} {c : Endianness → Codec β} {e : Engine}
  {native o : Endianness}

/-- The loop visits the three members and not the root. -/
theorem streamStruct_typeProps (he : e.Documented) {σ : Type}
    {onStream : (CdrStream → Option CdrStream) → σ → Option σ} (hsome : onStream some = some)
    (member : ℕ → σ → Option σ) (s : σ) :
    streamStruct e onStream typeProps member s =
      (member 0 s >>= fun s => member 1 s >>= fun s => member 2 s) := by
  have hids : e.entities typeProps = [0, 1, 2] := he.entities_eq typeProps
  have hstart : e.startStruct = some := funext he.startStruct_eq
  have hfinish : e.finishStruct = some := funext he.finishStruct_eq
  simp [streamStruct, hids, hstart, hfinish, hsome]

theorem writes_members (native o : Endianness) (he : e.Documented) (hbg : bg.Follows c)
    (sample : TestType β) :
    Writes native o (streamStruct e id typeProps (writeMember bg e native sample))
      ((Codec.message o (c o)).encode · sample) := by
  have hparts := (writes_write native o he wordSize_eight [sample.seq.toNat]).bind
    ((writes_write native o he wordSize_eight [sample.timestamp.toNat]).bind
      (hbg.writes native o sample.baggage he))
  rw [funext (streamStruct_typeProps he rfl (writeMember bg e native sample))]
  exact hparts

theorem reads_members (native o : Endianness) (he : e.Documented) (hbg : bg.Follows c)
    (sample : TestType β) :
    Reads native o (fun s => streamStruct e besides typeProps (readMember bg e native) (sample, s))
      (Codec.message o (c o)) := by
  have hword := (reads_word native o he wordSize_eight).map UInt64.ofNat UInt64.toNat
    (fun _ => UInt64.ofNat_toNat) (fun _ => Codec.toNat_ofNat_of_fits o)
  have hparts := (hword.bind (hword.bind (hbg.reads native o he))).map
    (fun t => TestType.mk t.1 t.2.1 t.2.2) (fun m => (m.seq, m.timestamp, m.baggage))
    (fun _ => rfl) (fun _ _ => rfl)
  refine hparts.congr fun s => ?_
  rw [streamStruct_typeProps he rfl]
  cases hseq : read e native s 8 1 with
  | none => simp [readMember, hseq]
  | some r =>
    cases htimestamp : read e native r.2 8 1 with
    | none => simp [readMember, hseq, htimestamp]
    | some r' =>
      cases hbaggage : bg.read e native r'.2 with
      | none => simp [readMember, hseq, htimestamp, hbaggage]
      | some r'' => simp [readMember, hseq, htimestamp, hbaggage]

theorem moves_members (native o : Endianness) (he : e.Documented) (hbg : bg.Follows c)
    (sample : TestType β) :
    Moves native o (streamStruct e id typeProps (moveMember bg e sample))
      ((Codec.message o (c o)).encode · sample) := by
  have hparts := (moves_move native o he wordSize_eight [sample.seq.toNat]).bind
    ((moves_move native o he wordSize_eight [sample.timestamp.toNat]).bind
      (hbg.moves native o sample.baggage he))
  rw [funext (streamStruct_typeProps he rfl (moveMember bg e sample))]
  exact hparts

end Messages

end DdsBenchmark.Wire
