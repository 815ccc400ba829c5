import DdsBenchmark.Wire.TestData

/-! Serialized samples: a header of four bytes that names the encoding and the byte order, the
stream behind it, and zeroes up to a multiple of four. The writer serializes in its own byte
order and the reader goes by the header. -/

namespace DdsBenchmark.Wire

def cdrHeaderSize : ℕ := 4

def boLittle : UInt8 := 0x01

def plainCdr : UInt8 := 0x00

def plainCdr2 : UInt8 := 0x06

/-- The versions that a final type of any encoding can name in its header. -/
inductive EncodingVersion where
  | basicCdr
  | xcdrV2
  deriving DecidableEq

/-- A process: its library, the byte order of its machine, what fresh memory holds, and how it
reads the second version of the encoding. -/
structure Host (β : Type) where
  engine : Engine
  native : Endianness
  fresh : ℕ → UInt8
  xcdrV2 : Endianness → List UInt8 → Option (TestType β)

/-- A serialized sample: `m_data` with `m_size` bytes, and `m_t` once it is known. -/
structure Serdata (β : Type) where
  data : List UInt8
  sample : Option (TestType β)

/-- The second byte of the header of a plain stream. -/
def encodingByte (native : Endianness) : UInt8 :=
  if native = .littleEndian then plainCdr ||| boLittle else plainCdr

/-- `write_header`: the four bytes. -/
def writeHeader (native : Endianness) : List UInt8 := [0, encodingByte native, 0, 0]

def finishHeader (bytesWritten : ℕ) (buffer : List UInt8) : List UInt8 :=
  overwrite buffer 3 [UInt8.ofNat (4 % (4 - bytesWritten % 4))]

/-- What the second byte of a header says. -/
def encodingOf (b : UInt8) : Option (EncodingVersion × Endianness) :=
  let order := if b &&& boLittle ≠ 0 then Endianness.littleEndian else .bigEndian
  let field := b &&& ~~~boLittle
  if field = plainCdr then some (.basicCdr, order)
  else if field = plainCdr2 then some (.xcdrV2, order)
  else none

/-- `read_header` of a buffer that has room for a header. -/
def readHeader (buffer : List UInt8) (hsize : cdrHeaderSize ≤ buffer.length) :
    Option (EncodingVersion × Endianness) :=
  have : 1 < buffer.length := Nat.lt_of_lt_of_le (by decide) hsize
  encodingOf buffer[1]

/-- `resize`: fresh memory, and zeroes behind it; the subtraction is one of 64 bits. -/
def resize (fresh : ℕ → UInt8) (requestedSize : ℕ) : List UInt8 :=
  if requestedSize = 0 then []
  else (List.range requestedSize).map fresh ++
    List.replicate ((2 ^ 64 - requestedSize % 2 ^ 64) % 4) 0

/-- The loop of `serdata_from_ser_iov`: pieces are copied until `size` bytes are there. -/
def copyIov (size : ℕ) : ℕ → List (List UInt8) → List UInt8 → List UInt8
  | _, [], data => data
  | off, piece :: iov, data =>
    if off < size then
      let bytes := piece.take (size - off)
      copyIov size (off + bytes.length) iov (overwrite data off bytes)
    else data

section Host

variable {β : Type} (bg : Baggage β) (h : Host β)

/-- The size the stream has moved by; `SIZE_MAX` where the position is absent. -/
def CdrStream.size (s : CdrStream) : ℕ := s.position.getD (2 ^ 64 - 1)

/-- `get_serialized_size`, with the size that `get_serialized_fixed_size` keeps between calls. -/
def getSerializedSize (kept : Option ℕ) (sample : TestType β) : Option (ℕ × Option ℕ) :=
  if bg.isSelfContained then
    match kept with
    | some sz => some (sz, some sz)
    | none => (moveTest bg h.engine (basicCdrStream h.native h.native) sample).map fun s =>
      (s.size, some s.size)
  else
    (moveTest bg h.engine (basicCdrStream h.native h.native) sample).map fun s => (s.size, kept)

/-- `buf_sz - CDR_HEADER_SIZE`, a subtraction of 64 bits: below the size of the header, where
there is an assertion and nothing else, it wraps. -/
def roomBehindHeader (bufSz : ℕ) : ℕ :=
  if bufSz < cdrHeaderSize then 2 ^ 64 + bufSz - cdrHeaderSize else bufSz - cdrHeaderSize

/-- `serialize_into`: the first `bufSz` bytes of the buffer are the ones to write to. -/
def serializeInto (buffer : List UInt8) (bufSz : ℕ) (sample : TestType β) :
    Option (List UInt8) := do
  let str := h.engine.setBuffer (basicCdrStream h.native h.native)
    ((buffer.drop cdrHeaderSize).take (roomBehindHeader bufSz))
  let str ← writeTest bg h.engine h.native str sample
  let body ← str.buffer
  return finishHeader bufSz (overwrite (overwrite buffer 0 (writeHeader h.native)) 4 body)

/-- `deserialize_sample_from_buffer` of data, from a buffer that has room for a header: the
function does not look at the size before it reads one. -/
def deserialize (buffer : List UInt8) (hsize : cdrHeaderSize ≤ buffer.length) :
    Option (TestType β) :=
  match readHeader buffer hsize with
  | none => none
  | some (.basicCdr, order) =>
    (readTest bg h.engine h.native
      (h.engine.setBuffer (basicCdrStream h.native order) (buffer.drop cdrHeaderSize))).map Prod.fst
  | some (.xcdrV2, order) => h.xcdrV2 order (buffer.drop cdrHeaderSize)

/-- `getT` where the sample is not known yet. The data are none at all, which is a null pointer, or
a multiple of four bytes. -/
def getT (data : List UInt8) : Option (TestType β) :=
  if hsize : cdrHeaderSize ≤ data.length then deserialize bg h data hsize else none

/-- `serdata_from_sample` of data, with the size kept between calls. -/
def serdataFromSample (kept : Option ℕ) (sample : TestType β) :
    Option (Serdata β × Option ℕ) := do
  let (sz, kept) ← getSerializedSize bg h kept sample
  let sz := sz + cdrHeaderSize
  let data ← serializeInto bg h (resize h.fresh sz) sz sample
  return ({ data, sample := some sample }, kept)

/-- The samples of a process, one after the other. -/
def serializeAll : Option ℕ → List (TestType β) → Option (List (Serdata β))
  | _, [] => some []
  | kept, sample :: samples => do
    let (d, kept) ← serdataFromSample bg h kept sample
    let ds ← serializeAll kept samples
    return d :: ds

/-- `sertype_get_serialized_size`; `SIZE_MAX` stands for a failure. -/
def sertypeGetSerializedSize (kept : Option ℕ) (sample : TestType β) : ℕ :=
  match getSerializedSize bg h kept sample with
  | some (sz, _) => sz + cdrHeaderSize
  | none => 2 ^ 64 - 1

/-- `serdata_from_ser_iov` of data: a sample that cannot be read is no serialized sample. -/
def serdataFromSerIov (iov : List (List UInt8)) (size : ℕ) : Option (Serdata β) :=
  let data := copyIov size 0 iov (resize h.fresh size)
  (getT bg h data).map fun sample => { data, sample := some sample }

/-- `serdata_to_sample`: the sample is read from the data where it is not known yet. -/
def serdataToSample (d : Serdata β) : Option (TestType β) :=
  match d.sample with
  | some sample => some sample
  | none => getT bg h d.data

end Host

/-- `serdata_size`: a number of 32 bits. -/
def serdataSize {β : Type} (d : Serdata β) : ℕ := d.data.length % 2 ^ 32

/-- `serdata_to_ser`: `sz` bytes from `off` on. -/
def serdataToSer {β : Type} (d : Serdata β) (off sz : ℕ) : List UInt8 := (d.data.drop off).take sz

end DdsBenchmark.Wire
