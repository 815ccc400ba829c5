import DdsBenchmark.Wire.Serdata

/-! From a sample to its image, through pieces of any lengths, and back to a sample on another
machine. -/

namespace DdsBenchmark.Wire

section Messages

variable {β : Type} {bg : Baggage β} {c : Endianness → Codec β} {e : Engine}
  {native o : Endianness}

theorem ready_reset (native o : Endianness) (he : e.Documented) :
    Ready native o (e.reset (basicCdrStream native o)) 0 none := by
  rw [he.reset_eq]
  exact ⟨rfl, rfl, rfl, Nat.dvd_zero _, rfl, rfl, rfl, rfl, fun _ h => by cases h⟩

theorem ready_setBuffer (native o : Endianness) (he : e.Documented) (b : List UInt8) :
    Ready native o (e.reset (e.setBuffer (basicCdrStream native o) b)) 0 (some b) := by
  obtain ⟨alignment, hset⟩ := he.setBuffer_eq (basicCdrStream native o) b
  rw [he.reset_eq, hset]
  exact ⟨rfl, rfl, rfl, Nat.dvd_zero _, rfl, rfl, rfl, rfl, fun _ _ => Nat.zero_le _⟩

/-- The bytes of a message in the byte order `o`. -/
def body (c : Endianness → Codec β) (o : Endianness) (sample : TestType β) : List UInt8 :=
  (Codec.message o (c o)).encode 0 sample

theorem size_moveTest (native o : Endianness) (he : e.Documented) (hbg : bg.Follows c)
    (sample : TestType β) :
    (moveTest bg e (basicCdrStream native o) sample).map CdrStream.size =
      some (body c o sample).length := by
  obtain ⟨s', hmove, hs'⟩ := moves_members native o he hbg sample _ 0
    (ready_reset native o he)
  rw [moveTest, hmove, Option.map_some, CdrStream.size, hs'.position, Nat.zero_add]
  rfl

theorem writeTest_buffer (native o : Endianness) (he : e.Documented) (hbg : bg.Follows c)
    (sample : TestType β) (b : List UInt8) :
    (writeTest bg e native (e.setBuffer (basicCdrStream native o) b) sample >>= (·.buffer)) =
      if (body c o sample).length ≤ b.length then some (overwrite b 0 (body c o sample))
      else none := by
  have hwrites := writes_members native o he hbg sample
  have hready := ready_setBuffer native o he b
  split
  · rename_i hroom
    obtain ⟨s', hwrite, hs'⟩ := hwrites.fits _ 0 b hready (by rwa [Nat.zero_add])
    rw [writeTest, hwrite]
    exact hs'.buffer
  · rename_i hroom
    rw [writeTest, hwrites.exceeds _ 0 b hready (by
      rw [Nat.zero_add]
      exact Nat.lt_of_not_le hroom)]
    rfl

theorem readTest_eq (native o : Endianness) (he : e.Documented) (hbg : bg.Follows c)
    (b : List UInt8) :
    (readTest bg e native (e.setBuffer (basicCdrStream native o) b)).map Prod.fst =
      ((Codec.message o (c o)).decode b 0).map Prod.fst := by
  have hreads := reads_members native o he hbg ⟨0, 0, bg.initial⟩
  have hready := ready_setBuffer native o he b
  cases hdecode : (Codec.message o (c o)).decode b 0 with
  | none => rw [readTest, hreads.rejects _ 0 b hready hdecode]; rfl
  | some r =>
    obtain ⟨s', hread, -⟩ := hreads.accepts _ 0 b r.1 r.2 hready hdecode
    rw [readTest, hread]
    rfl

end Messages

section Images

variable {β : Type} {bg : Baggage β} {c : Endianness → Codec β} (h : Host β)

/-- The header in front of a stream, both together of `size` bytes. -/
def header (native : Endianness) (size : ℕ) : List UInt8 :=
  [0, encodingByte native, 0, UInt8.ofNat (4 % (4 - size % 4))]

theorem overwrite_zero (b bs : List UInt8) : overwrite b 0 bs = bs ++ b.drop bs.length := by
  simp [overwrite]

/-- Header and stream are put in front of what is left of the buffer. -/
theorem finishHeader_overwrite (native : Endianness) {buffer bs : List UInt8} {bufSz : ℕ}
    (hbuffer : bufSz ≤ buffer.length) (hroom : cdrHeaderSize + bs.length ≤ bufSz) :
    finishHeader bufSz (overwrite (overwrite buffer 0 (writeHeader native)) 4
        (overwrite ((buffer.drop cdrHeaderSize).take (bufSz - cdrHeaderSize)) 0 bs)) =
      header native bufSz ++ bs ++ buffer.drop (cdrHeaderSize + bs.length) := by
  simp only [cdrHeaderSize] at hroom ⊢
  have hrest : ((buffer.drop 4).take (bufSz - 4)).length = bufSz - 4 := by
    rw [List.length_take, List.length_drop]
    omega
  have hregion : overwrite ((buffer.drop 4).take (bufSz - 4)) 0 bs ++
      (buffer.drop 4).drop (bufSz - 4) = bs ++ buffer.drop (4 + bs.length) := by
    rw [overwrite_zero, List.append_assoc, ← List.drop_append_of_le_length (by omega),
      List.take_append_drop, List.drop_drop]
  have hsize : (overwrite ((buffer.drop 4).take (bufSz - 4)) 0 bs).length = bufSz - 4 := by
    rw [length_overwrite (by omega), hrest]
  have hheader : overwrite buffer 0 (writeHeader native) =
      writeHeader native ++ buffer.drop 4 := overwrite_zero _ _
  have hbody : overwrite (writeHeader native ++ buffer.drop 4) 4
      (overwrite ((buffer.drop 4).take (bufSz - 4)) 0 bs) =
      writeHeader native ++ (bs ++ buffer.drop (4 + bs.length)) := by
    rw [← hregion, overwrite, hsize, List.append_assoc]
    have hfour : (writeHeader native).length = 4 := rfl
    rw [List.take_left' hfour, ← List.drop_drop, List.drop_left' hfour]
  rw [hheader, hbody]
  simp [finishHeader, overwrite, writeHeader, header]

theorem serializeInto_eq (he : h.engine.Documented) (hbg : bg.Follows c) (sample : TestType β)
    {buffer : List UInt8} {bufSz : ℕ} (hsize : cdrHeaderSize ≤ bufSz)
    (hbuffer : bufSz ≤ buffer.length) :
    serializeInto bg h buffer bufSz sample =
      if cdrHeaderSize + (body c h.native sample).length ≤ bufSz then
        some (header h.native bufSz ++ body c h.native sample ++
          buffer.drop (cdrHeaderSize + (body c h.native sample).length))
      else none := by
  have hroom : roomBehindHeader bufSz = bufSz - cdrHeaderSize := if_neg (by omega)
  have hlength : ((buffer.drop cdrHeaderSize).take (bufSz - cdrHeaderSize)).length =
      bufSz - cdrHeaderSize := by
    rw [List.length_take, List.length_drop]
    omega
  have hwrite := writeTest_buffer h.native h.native he hbg sample
    ((buffer.drop cdrHeaderSize).take (bufSz - cdrHeaderSize))
  rw [hlength] at hwrite
  have hbind : ∀ f : List UInt8 → List UInt8,
      (writeTest bg h.engine h.native (h.engine.setBuffer (basicCdrStream h.native h.native)
        ((buffer.drop cdrHeaderSize).take (bufSz - cdrHeaderSize))) sample >>=
          fun s => s.buffer >>= fun b => some (f b)) = _ :=
    fun f => (Option.bind_assoc ..).symm.trans (congrArg (·.bind fun b => some (f b)) hwrite)
  unfold serializeInto
  rw [hroom]
  refine (hbind _).trans ?_
  split
  · rename_i hfits
    rw [if_pos (by omega), Option.bind_some, finishHeader_overwrite _ hbuffer (by omega)]
  · rw [if_neg (by omega)]
    rfl

theorem resize_eq {size : ℕ} (hsize : size ≠ 0) (fresh : ℕ → UInt8) :
    resize fresh size =
      (List.range size).map fresh ++ List.replicate (padding size 4) 0 := by
  have hpadding : (2 ^ 64 - size % 2 ^ 64) % 4 = padding size 4 := by
    unfold padding
    omega
  rw [resize, if_neg hsize, hpadding]

theorem length_resize {size : ℕ} (hsize : 4 ∣ size) (fresh : ℕ → UInt8) :
    (resize fresh size).length = size := by
  by_cases hzero : size = 0
  · simp [hzero, resize]
  · rw [resize_eq hzero, padding_eq_zero_of_dvd hsize]
    simp

/-- A message is two numbers of eight bytes and its payload. -/
theorem body_eq (c : Endianness → Codec β) (o : Endianness) (sample : TestType β) :
    body c o sample = o.order (wordBytes 8 sample.seq.toNat) ++
      (o.order (wordBytes 8 sample.timestamp.toNat) ++ (c o).encode 16 sample.baggage) := by
  have hseq := Codec.encode_uint64 o (Nat.dvd_zero 8) sample.seq
  have hlength : ((Codec.uint64 o).encode 0 sample.seq).length = 8 := by
    rw [hseq, length_order, length_wordBytes]
  have htimestamp := Codec.encode_uint64 o (Nat.dvd_refl 8) sample.timestamp
  have hlength' : ((Codec.uint64 o).encode 8 sample.timestamp).length = 8 := by
    rw [htimestamp, length_order, length_wordBytes]
  show (Codec.uint64 o).encode 0 sample.seq ++
    ((Codec.uint64 o).encode (0 + ((Codec.uint64 o).encode 0 sample.seq).length)
      sample.timestamp ++ (c o).encode _ sample.baggage) = _
  rw [hlength, Nat.zero_add, hlength', hseq, htimestamp]

theorem length_body (c : Endianness → Codec β) (o : Endianness) (sample : TestType β) :
    (body c o sample).length = 16 + ((c o).encode 16 sample.baggage).length := by
  rw [body_eq]
  simp only [List.length_append, length_order, length_wordBytes]
  omega

/-- The size kept between the calls, once there is one, is that of every message. -/
def Kept (c : Endianness → Codec β) (native : Endianness) (kept : Option ℕ) : Prop :=
  ∀ sz, kept = some sz → ∀ sample, (body c native sample).length = sz

theorem getSerializedSize_eq (he : h.engine.Documented) (hbg : bg.Follows c) {kept : Option ℕ}
    (hkept : Kept c h.native kept) (sample : TestType β) :
    ∃ kept', getSerializedSize bg h kept sample =
      some ((body c h.native sample).length, kept') ∧ Kept c h.native kept' := by
  have hsize := size_moveTest h.native h.native he hbg sample
  obtain ⟨s, hmove, hs⟩ := Option.map_eq_some_iff.mp hsize
  unfold getSerializedSize
  split
  · rename_i hself
    cases kept with
    | some sz => exact ⟨some sz, by rw [hkept sz rfl], hkept⟩
    | none =>
      refine ⟨_, by rw [hmove, Option.map_some, hs], ?_⟩
      rintro sz ⟨⟩ other
      rw [length_body, length_body, hbg.fixed hself _ _ other.baggage sample.baggage]
  · exact ⟨kept, by rw [hmove, Option.map_some, hs], hkept⟩

/-- The bytes that stand for a sample written on a machine with the byte order `native`. -/
def image (c : Endianness → Codec β) (native : Endianness) (sample : TestType β) : List UInt8 :=
  header native ((body c native sample).length + cdrHeaderSize) ++ body c native sample ++
    List.replicate (padding ((body c native sample).length + cdrHeaderSize) 4) 0

theorem serdataFromSample_eq (he : h.engine.Documented) (hbg : bg.Follows c) {kept : Option ℕ}
    (hkept : Kept c h.native kept) (sample : TestType β) :
    ∃ kept', serdataFromSample bg h kept sample =
      some (⟨image c h.native sample, some sample⟩, kept') ∧ Kept c h.native kept' := by
  obtain ⟨kept', hsize, hkept'⟩ := getSerializedSize_eq h he hbg hkept sample
  refine ⟨kept', ?_, hkept'⟩
  have hne : (body c h.native sample).length + cdrHeaderSize ≠ 0 := Nat.succ_ne_zero _
  have hfresh : ((List.range ((body c h.native sample).length + cdrHeaderSize)).map
      h.fresh).length = cdrHeaderSize + (body c h.native sample).length := by
    rw [List.length_map, List.length_range, Nat.add_comm]
  have hroom : (body c h.native sample).length + cdrHeaderSize ≤
      (resize h.fresh ((body c h.native sample).length + cdrHeaderSize)).length := by
    rw [resize_eq hne, List.length_append, hfresh]
    omega
  have hserialize := serializeInto_eq h he hbg sample (Nat.le_add_left _ _) hroom
  rw [if_pos (by omega), resize_eq hne, List.drop_left' hfresh] at hserialize
  simp only [serdataFromSample, hsize, Option.bind_eq_bind, Option.bind_some]
  rw [resize_eq hne, hserialize]
  rfl

end Images

section Pieces

variable {β : Type} {bg : Baggage β} {c : Endianness → Codec β} (h : Host β)

/-- However the bytes are cut into pieces, they are put together again, as far as they go. -/
theorem copyIov_eq {size : ℕ} (iov : List (List UInt8)) {off : ℕ} {data : List UInt8}
    (hoff : off ≤ size) (hdata : size ≤ data.length) :
    copyIov size off iov data = overwrite data off (iov.flatten.take (size - off)) := by
  induction iov generalizing off data with
  | nil => simp [copyIov, overwrite]
  | cons piece iov ih =>
    unfold copyIov
    split
    · have hbytes : (piece.take (size - off)).length ≤ size - off := List.length_take_le _ _
      have hlength : (overwrite data off (piece.take (size - off))).length = data.length :=
        length_overwrite (by omega)
      have hleft : size - (off + (piece.take (size - off)).length) =
          size - off - piece.length := by
        rw [List.length_take]
        omega
      rw [ih (by omega) (by omega), overwrite_overwrite _ _ (by omega), hleft,
        List.flatten_cons, List.take_append]
    · have hend : size - off = 0 := by omega
      simp [hend, overwrite]

/-- The whole way of a sample that arrives in pieces. -/
def receive (bg : Baggage β) (h : Host β) (iov : List (List UInt8)) (size : ℕ) :
    Option (TestType β) :=
  serdataFromSerIov bg h iov size >>= serdataToSample bg h

theorem receive_eq {iov : List (List UInt8)} {size : ℕ} (hiov : iov.flatten.length = size)
    (hsize : 4 ∣ size) : receive bg h iov size = getT bg h iov.flatten := by
  have hfresh := length_resize hsize h.fresh
  have hcopied : copyIov size 0 iov (resize h.fresh size) = iov.flatten := by
    rw [copyIov_eq iov (Nat.zero_le _) (Nat.le_of_eq hfresh.symm), Nat.sub_zero, overwrite_zero,
      List.take_of_length_le (Nat.le_of_eq hiov), hiov, List.drop_eq_nil_of_le
      (Nat.le_of_eq hfresh), List.append_nil]
  rw [receive, serdataFromSerIov, hcopied]
  cases getT bg h iov.flatten <;> rfl

theorem getT_eq (he : h.engine.Documented) (hbg : bg.Follows c) (native : Endianness)
    (size : ℕ) (rest : List UInt8) :
    getT bg h (header native size ++ rest) =
      ((Codec.message native (c native)).decode rest 0).map Prod.fst := by
  have hsize : cdrHeaderSize ≤ (header native size ++ rest).length := by
    rw [List.length_append]
    exact Nat.le_add_right _ _
  have hheader : readHeader (header native size ++ rest) hsize = some (.basicCdr, native) := by
    show encodingOf (encodingByte native) = _
    cases native <;> rfl
  have hrest : (header native size ++ rest).drop cdrHeaderSize = rest := rfl
  simp only [getT, dif_pos hsize, deserialize, hheader, hrest]
  exact readTest_eq h.native native he hbg rest

theorem length_image (c : Endianness → Codec β) (native : Endianness) (sample : TestType β) :
    (image c native sample).length = (body c native sample).length + cdrHeaderSize +
      padding ((body c native sample).length + cdrHeaderSize) 4 := by
  simp only [image, List.length_append, List.length_replicate]
  show 4 + (body c native sample).length + _ = _
  rw [Nat.add_comm 4]
  rfl

/-- The bytes that `serdata_size` counts bring a sample back exactly when it counts them all. -/
theorem receive_image_iff (he : h.engine.Documented) (hbg : bg.Follows c) (native : Endianness)
    (sample : TestType β) {iov : List (List UInt8)}
    (hiov : iov.flatten = (image c native sample).take ((image c native sample).length % 2 ^ 32)) :
    receive bg h iov ((image c native sample).length % 2 ^ 32) = some sample ↔
      (image c native sample).length < 2 ^ 32 := by
  have hlength := length_image c native sample
  have hdvd : 4 ∣ (image c native sample).length := by
    rw [hlength]
    exact dvd_add_padding _ (by decide)
  have hdvd' : 4 ∣ (image c native sample).length % 2 ^ 32 := by omega
  have hflat : iov.flatten.length = (image c native sample).length % 2 ^ 32 := by
    rw [hiov, List.length_take]
    omega
  rw [receive_eq h hflat hdvd', hiov]
  constructor
  · intro hreceived
    by_contra hlarge
    -- what is cut off holds more than the padding
    have hpadding := padding_lt ((body c native sample).length + cdrHeaderSize) (a := 4) (by decide)
    have hcut : (image c native sample).length % 2 ^ 32 <
        (body c native sample).length + cdrHeaderSize := by omega
    generalize (image c native sample).length % 2 ^ 32 = n at *
    by_cases hzero : n = 0
    · rw [hzero, List.take_zero] at hreceived
      cases hreceived
    · obtain ⟨m, rfl⟩ : ∃ m, n = 4 + m := ⟨n - 4, by omega⟩
      have htake : (image c native sample).take (4 + m) =
          header native ((body c native sample).length + cdrHeaderSize) ++
            (body c native sample ++ List.replicate
              (padding ((body c native sample).length + cdrHeaderSize) 4) 0).take m := by
        rw [image, List.append_assoc]
        exact @List.take_length_add_append _ (header native _) _ m
      rw [htake, getT_eq h he hbg] at hreceived
      obtain ⟨⟨v, q⟩, hdecode, hv⟩ := Option.map_eq_some_iff.mp hreceived
      have hv' : v = sample := hv
      rw [hv'] at hdecode
      obtain ⟨-, rfl, hend⟩ := (Codec.message native (c native)).decode_end _ _ _ _ hdecode
      have hend' : (body c native sample).length ≤ m := by
        rw [Nat.zero_add] at hend
        exact hend.trans (List.length_take_le _ _)
      simp only [cdrHeaderSize] at hcut
      omega
  · intro hsmall
    have hbody := length_body c native sample
    have hpayload : (c native).Fits sample.baggage := hbg.fits native 16 _ (by omega)
    have hfits : (Codec.message native (c native)).Fits sample :=
      ⟨Codec.fits_uint64 native _, Codec.fits_uint64 native _, hpayload⟩
    have hread := (Codec.message native (c native)).decode_encode [] sample
      (List.replicate (padding ((body c native sample).length + cdrHeaderSize) 4) 0) hfits
    rw [Nat.mod_eq_of_lt hsmall, List.take_length, image, List.append_assoc,
      getT_eq h he hbg]
    exact congrArg (Option.map Prod.fst) hread

theorem serializeAll_eq (he : h.engine.Documented) (hbg : bg.Follows c) {kept : Option ℕ}
    (hkept : Kept c h.native kept) (samples : List (TestType β)) :
    serializeAll bg h kept samples =
      some (samples.map fun sample => ⟨image c h.native sample, some sample⟩) := by
  induction samples generalizing kept with
  | nil => rfl
  | cons sample samples ih =>
    obtain ⟨kept', hserdata, hkept'⟩ := serdataFromSample_eq h he hbg hkept sample
    simp [serializeAll, hserdata, ih hkept']

theorem kept_none (c : Endianness → Codec β) (native : Endianness) : Kept c native none :=
  fun _ h => by cases h

/-- The images of a whole run, each in pieces of its own. -/
theorem receive_serializeAll {writer reader : Host β} (hw : writer.engine.Documented)
    (hr : reader.engine.Documented) (hbg : bg.Follows c) (samples : List (TestType β)) :
    ∃ ds, serializeAll bg writer none samples = some ds ∧
      ds.map Serdata.sample = samples.map some ∧
      ∀ d ∈ ds, ∀ sample, d.sample = some sample → d.data = image c writer.native sample ∧
        ∀ iov : List (List UInt8), iov.flatten = serdataToSer d 0 (serdataSize d) →
          (receive bg reader iov (serdataSize d) = some sample ↔ d.data.length < 2 ^ 32) := by
  refine ⟨_, serializeAll_eq writer hw hbg (kept_none c writer.native) samples, ?_, ?_⟩
  · rw [List.map_map]
    rfl
  · intro d hd sample hsample
    obtain ⟨sent, -, rfl⟩ := List.mem_map.mp hd
    cases hsample
    exact ⟨rfl, fun iov hiov => receive_image_iff reader hr hbg writer.native sample hiov⟩

theorem length_image_string (native : Endianness) (sample : TestData) :
    (image Codec.string native sample).length =
      sample.baggage.length + 25 + padding (sample.baggage.length + 25) 4 := by
  have hpayload : ((Codec.string native).encode 16 sample.baggage).length =
      sample.baggage.length + 5 := by
    rw [encode_string, List.length_append, List.length_append, List.length_singleton]
    show ((Codec.word native 4).encode 16 _).length + _ = _
    rw [Codec.length_encode_word, padding_eq_zero_of_dvd (by decide)]
    omega
  have hbody : (body Codec.string native sample).length + cdrHeaderSize =
      sample.baggage.length + 25 := by
    rw [length_body, hpayload]
    show 16 + (sample.baggage.length + 5) + 4 = _
    omega
  rw [length_image, hbody]

theorem length_image_array (native : Endianness) (sample : TestFixedData) :
    (image Codec.array native sample).length = 1044 := by
  rw [length_image, length_body, Codec.length_encode_array]
  rfl

/-- Every message with a text is received as it was sent, whatever the two machines and however
its bytes travel, exactly when the text leaves room for the count of the whole image. -/
theorem received_iff (writer reader : Host (List UInt8)) (hw : writer.engine.Documented)
    (hr : reader.engine.Documented) (samples : List TestData) :
    ∃ ds, serializeAll stringBaggage writer none samples = some ds ∧
      ds.map Serdata.sample = samples.map some ∧
      ∀ d ∈ ds, ∀ sample, d.sample = some sample → ∀ iov : List (List UInt8),
        iov.flatten = serdataToSer d 0 (serdataSize d) →
        (receive stringBaggage reader iov (serdataSize d) = some sample ↔
          sample.baggage.length + 29 ≤ 2 ^ 32) := by
  obtain ⟨ds, hds, hsamples, himages⟩ :=
    receive_serializeAll hw hr stringBaggage_follows samples
  refine ⟨ds, hds, hsamples, fun d hd sample hsample iov hiov => ?_⟩
  obtain ⟨hdata, hreceive⟩ := himages d hd sample hsample
  rw [hreceive iov hiov, hdata, length_image_string]
  unfold padding
  omega

/-- A process that writes on a big-endian machine and one that reads on a little-endian one. -/
def bigHost (β : Type) : Host β := ⟨plainEngine, .bigEndian, fun _ => 0, fun _ _ => none⟩

def littleHost (β : Type) : Host β := ⟨plainEngine, .littleEndian, fun _ => 7, fun _ _ => none⟩

theorem received_two_messages : ∃ ds,
    serializeAll stringBaggage (bigHost _) none [⟨1, 2, [116]⟩, ⟨2, 3, []⟩] = some ds ∧
      ds.map Serdata.sample = [some ⟨1, 2, [116]⟩, some ⟨2, 3, []⟩] ∧
      ∀ d ∈ ds, ∀ sample, d.sample = some sample → ∀ iov : List (List UInt8),
        iov.flatten = serdataToSer d 0 (serdataSize d) →
        (receive stringBaggage (littleHost _) iov (serdataSize d) = some sample ↔
          sample.baggage.length + 29 ≤ 2 ^ 32) :=
  received_iff (bigHost _) (littleHost _) plainEngine_documented plainEngine_documented
    [⟨1, 2, [116]⟩, ⟨2, 3, []⟩]

/-- Messages of a fixed length are always received: the size kept from the first one is right
for all of them. -/
theorem fixed_received (writer reader : Host (Vector UInt8 1024))
    (hw : writer.engine.Documented) (hr : reader.engine.Documented)
    (samples : List TestFixedData) :
    ∃ ds, serializeAll arrayBaggage writer none samples = some ds ∧
      ds.map Serdata.sample = samples.map some ∧
      ∀ d ∈ ds, serdataSize d = 1044 ∧ ∀ iov : List (List UInt8),
        iov.flatten = serdataToSer d 0 (serdataSize d) →
        receive arrayBaggage reader iov (serdataSize d) = d.sample := by
  obtain ⟨ds, hds, hsamples, himages⟩ := receive_serializeAll hw hr arrayBaggage_follows samples
  refine ⟨ds, hds, hsamples, fun d hd => ?_⟩
  have hsample : d.sample ∈ samples.map some := hsamples ▸ List.mem_map_of_mem hd
  obtain ⟨sample, -, hsome⟩ := List.mem_map.mp hsample
  obtain ⟨hdata, hreceive⟩ := himages d hd sample hsome.symm
  have hlength : d.data.length = 1044 := by rw [hdata, length_image_array]
  refine ⟨by rw [serdataSize, hlength, Nat.mod_eq_of_lt (by decide)], fun iov hiov => ?_⟩
  rw [← hsome, hreceive iov hiov, hlength]
  decide

theorem fixed_received_two_messages : ∃ ds,
    serializeAll arrayBaggage (bigHost _) none
        [⟨1, 2, Vector.replicate 1024 5⟩, ⟨2, 3, Vector.replicate 1024 0⟩] = some ds ∧
      ds.map Serdata.sample =
        [some ⟨1, 2, Vector.replicate 1024 5⟩, some ⟨2, 3, Vector.replicate 1024 0⟩] ∧
      ∀ d ∈ ds, serdataSize d = 1044 ∧ ∀ iov : List (List UInt8),
        iov.flatten = serdataToSer d 0 (serdataSize d) →
        receive arrayBaggage (littleHost _) iov (serdataSize d) = d.sample :=
  fixed_received (bigHost _) (littleHost _) plainEngine_documented plainEngine_documented
    [⟨1, 2, Vector.replicate 1024 5⟩, ⟨2, 3, Vector.replicate 1024 0⟩]

end Pieces

end DdsBenchmark.Wire
