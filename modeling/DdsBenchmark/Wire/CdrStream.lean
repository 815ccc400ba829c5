import DdsBenchmark.Wire.Fields

/-! The basic CDR stream and its streaming functions for numbers and strings: write, read, and
move the cursor without a buffer. The functions that the library defines outside of its headers
are a parameter, with what the headers say of them. -/

namespace DdsBenchmark.Wire

/-- The data members of `cdr_stream`. The position is absent at `SIZE_MAX`, which stands for a
size without a bound, and the buffer is absent while its pointer is null. -/
structure CdrStream where
  streamEndianness : Endianness
  swap : Bool
  position : Option ℕ
  maxAlignment : ℕ
  alignment : ℕ
  buffer : Option (List UInt8)
  status : UInt64
  faultMask : UInt64
  deriving DecidableEq

/-- `basic_cdr_stream (end)` on a machine with the byte order `native`. -/
def basicCdrStream (native order : Endianness) : CdrStream where
  streamEndianness := order
  swap := native ≠ order
  position := some 0
  maxAlignment := 8
  alignment := 1
  buffer := none
  status := 0
  faultMask := ~~~0

/-- The bytes from position `p` on are replaced. -/
def overwrite (b : List UInt8) (p : ℕ) (bs : List UInt8) : List UInt8 :=
  b.take p ++ bs ++ b.drop (p + bs.length)

/-- What the headers declare and the library defines elsewhere. `align` yields nothing when the
cursor could not be moved, `startStruct` and `finishStruct` when they fail; `entities` lists the
ids in the order in which `first_entity` and `next_entity` visit an entity tree, given with depths
and ids. -/
structure Engine where
  align : CdrStream → ℕ → Bool → Option CdrStream
  bytesAvailable : CdrStream → ℕ → Bool
  reset : CdrStream → CdrStream
  setBuffer : CdrStream → List UInt8 → CdrStream
  entities : List (ℕ × ℕ) → List ℕ
  startStruct : CdrStream → Option CdrStream
  finishStruct : CdrStream → Option CdrStream

/-- The stream after its cursor has moved over the padding to a multiple of `a`. -/
def CdrStream.aligned (s : CdrStream) (p a : ℕ) (addZeroes : Bool) : CdrStream :=
  { s with
    position := some (p + padding p a)
    alignment := a
    buffer := if addZeroes then
        s.buffer.map fun b => overwrite b p (List.replicate (padding p a) 0)
      else s.buffer }

/-- The comments of the headers, for a cursor that stands at its alignment and a struct without
a parameter list. -/
structure Engine.Documented (e : Engine) : Prop where
  align_of_fits : ∀ s n addZeroes p, s.position = some p → s.alignment ∣ p → 0 < n →
    n ≤ s.maxAlignment → (∀ b, s.buffer = some b → p + padding p n ≤ b.length) →
    e.align s n addZeroes = some (s.aligned p n addZeroes)
  align_of_exceeds : ∀ s n addZeroes p b, s.position = some p → s.alignment ∣ p → 0 < n →
    n ≤ s.maxAlignment → s.buffer = some b → b.length < p + padding p n →
    e.align s n addZeroes = none
  bytesAvailable_iff : ∀ s n p b, s.position = some p → s.buffer = some b →
    (e.bytesAvailable s n = true ↔ p + n ≤ b.length)
  reset_eq : ∀ s, e.reset s = { s with position := some 0, alignment := 0, status := 0 }
  setBuffer_eq : ∀ s b, ∃ alignment, e.setBuffer s b =
    { s with buffer := some b, position := some 0, alignment }
  entities_eq : ∀ props, e.entities props = (props.filter (·.1 = 1)).map Prod.snd
  startStruct_eq : ∀ s, e.startStruct s = some s
  finishStruct_eq : ∀ s, e.finishStruct s = some s

/-- A library that does what the comments say, and nothing where they say nothing. -/
def plainEngine : Engine where
  align s n addZeroes := s.position.bind fun p =>
    if s.buffer.any fun b => b.length < p + padding p n then none
    else some (s.aligned p n addZeroes)
  bytesAvailable s n := match s.position, s.buffer with
    | some p, some b => p + n ≤ b.length
    | _, _ => true
  reset s := { s with position := some 0, alignment := 0, status := 0 }
  setBuffer s b := { s with buffer := some b, position := some 0, alignment := 0 }
  entities props := (props.filter (·.1 = 1)).map Prod.snd
  startStruct := some
  finishStruct := some

theorem plainEngine_documented : plainEngine.Documented where
  align_of_fits s n addZeroes p hp _ _ _ hroom := by
    have hfits : (s.buffer.any fun b => decide (b.length < p + padding p n)) = false := by
      cases hb : s.buffer with
      | none => rfl
      | some b => simpa using hroom b hb
    simp [plainEngine, hp, hfits]
  align_of_exceeds s n addZeroes p b hp _ _ _ hb hroom := by
    simp [plainEngine, hp, hb, hroom]
  bytesAvailable_iff s n p b hp hb := by simp [plainEngine, hp, hb]
  reset_eq _ := rfl
  setBuffer_eq _ _ := ⟨0, rfl⟩
  entities_eq _ := rfl
  startStruct_eq _ := rfl
  finishStruct_eq _ := rfl

namespace CdrStream

/-- `status (toadd)`: whether streaming is to be aborted. -/
def addStatus (s : CdrStream) (toadd : UInt64) : CdrStream × Bool :=
  ({ s with status := s.status ||| toadd }, (s.status ||| toadd) &&& s.faultMask != 0)

def moveBoundExceeded : UInt64 := 1

def writeBoundExceeded : UInt64 := 2

def illegalFieldValue : UInt64 := 16

/-- `incr_position`. -/
def incrPosition (s : CdrStream) (n : ℕ) : CdrStream :=
  { s with position := s.position.map (· + n) }

/-- Copying bytes to the cursor; nothing when there is no buffer to copy to. -/
def put (s : CdrStream) (bs : List UInt8) : Option CdrStream :=
  s.position.bind fun p => s.buffer.bind fun b => some { s with buffer := some (overwrite b p bs) }

/-- `n` bytes from the cursor on; nothing when they reach beyond the buffer. -/
def peek (s : CdrStream) (n : ℕ) : Option (List UInt8) :=
  s.position.bind fun p => s.buffer.bind fun b =>
    if p + n ≤ b.length then some ((b.drop p).take n) else none

end CdrStream

/-- `byte_swap`, by the size of the value; other sizes throw. -/
def byteSwap : ℕ → ℕ → ℕ
  | 2, u => ((u &&& 0xFF00) >>> 8) ||| ((u &&& 0x00FF) <<< 8)
  | 4, u =>
    let u := ((u &&& 0xFFFF0000) >>> 16) ||| ((u &&& 0x0000FFFF) <<< 16)
    ((u &&& 0xFF00FF00) >>> 8) ||| ((u &&& 0x00FF00FF) <<< 8)
  | 8, u =>
    let u := ((u &&& 0xFFFFFFFF00000000) >>> 32) ||| ((u &&& 0x00000000FFFFFFFF) <<< 32)
    let u := ((u &&& 0xFFFF0000FFFF0000) >>> 16) ||| ((u &&& 0x0000FFFF0000FFFF) <<< 16)
    ((u &&& 0xFF00FF00FF00FF00) >>> 8) ||| ((u &&& 0x00FF00FF00FF00FF) <<< 8)
  | _, u => u

section Streaming

variable (e : Engine) (native : Endianness)

/-- A number of `k` bytes as the machine stores it, swapped if asked for. -/
def stored (swap : Bool) (k w : ℕ) : List UInt8 :=
  native.order (wordBytes k (if swap then byteSwap k w else w))

/-- The numbers of `k` bytes that the machine has stored, swapped if asked for. -/
def loaded (swap : Bool) (k n : ℕ) (bs : List UInt8) : List ℕ :=
  (takeWords native k n bs).map fun w => if swap then byteSwap k w else w

/-- `write` of an array of numbers of `k` bytes. -/
def write (s : CdrStream) (k : ℕ) (towrite : List ℕ) : Option CdrStream := do
  let _ ← s.position
  let s ← e.align s k true
  if e.bytesAvailable s (k * towrite.length) then
    let s ← s.put (towrite.flatMap (stored native s.swap k))
    return s.incrPosition (k * towrite.length)
  else
    none

/-- `read` of an array of `n` numbers of `k` bytes. -/
def read (s : CdrStream) (k n : ℕ) : Option (List ℕ × CdrStream) := do
  let _ ← s.position
  let s ← e.align s k false
  if e.bytesAvailable s (k * n) then
    let bs ← s.peek (k * n)
    return (loaded native s.swap k n bs, s.incrPosition (k * n))
  else
    none

/-- `move` over an array of `n` numbers of `k` bytes. -/
def move (s : CdrStream) (k n : ℕ) : Option CdrStream :=
  match s.position with
  | none => some s
  | some _ => do
    let s ← e.align s k false
    return s.incrPosition (k * n)

/-- `write_string` with the bound `n`, where `0` is none. -/
def writeString (s : CdrStream) (towrite : List UInt8) (n : ℕ) : Option CdrStream := do
  let _ ← s.position
  let length := towrite.length + 1
  let (s, abort) :=
    if n ≠ 0 ∧ n + 1 < length then s.addStatus CdrStream.writeBoundExceeded else (s, false)
  if abort then none
  let s ← write e native s 4 [length % 2 ^ 32]
  if e.bytesAvailable s length then
    let s ← s.put (towrite ++ [0])
    return { s.incrPosition length with alignment := 1 }
  else
    none

/-- `read_string` with the bound `n`, where `0` is none. -/
def readString (s : CdrStream) (n : ℕ) : Option (List UInt8 × CdrStream) := do
  let _ ← s.position
  let (ws, s) ← read e native s 4 1
  let length := ws.headD 0
  if e.bytesAvailable s length then
    let (s, abort) :=
      if length = 0 then s.addStatus CdrStream.illegalFieldValue else (s, false)
    if abort then none
    if n ≠ 0 ∧ n + 1 < length then none
    -- the subtraction is one of 32 bits
    let toread ← s.peek (min ((length + (2 ^ 32 - 1)) % 2 ^ 32) (if n = 0 then 2 ^ 64 - 1 else n))
    return (toread, { s.incrPosition length with alignment := 1 })
  else
    none

/-- `move_string` with the bound `n`, where `0` is none. -/
def moveString (s : CdrStream) (toincr : List UInt8) (n : ℕ) : Option CdrStream :=
  match s.position with
  | none => some s
  | some _ => do
    let length := toincr.length + 1
    let (s, abort) :=
      if n ≠ 0 ∧ n + 1 < length then s.addStatus CdrStream.moveBoundExceeded else (s, false)
    if abort then none
    let s ← move e s 4 1
    return { s.incrPosition length with alignment := 1 }

/-- The generated functions over a struct, `member` being the switch over its members, which are
not optional, and `onStream` what takes an operation of the stream to the state of the function.
`start_member` and `finish_member` of this stream do nothing. -/
def streamStruct {σ : Type} (onStream : (CdrStream → Option CdrStream) → σ → Option σ)
    (props : List (ℕ × ℕ)) (member : ℕ → σ → Option σ) (s : σ) : Option σ := do
  let s ← onStream e.startStruct s
  let s ← (e.entities props).foldlM (fun s id => member id s) s
  onStream e.finishStruct s

end Streaming

end DdsBenchmark.Wire
