/-! The samples of the performance tool. A publisher numbers its samples and deals the keys out in
turn, as far as its topic has a key; the subscriber takes the number and the key from each sample,
and 0 for the key of a topic that has none. -/

namespace DdsBenchmark.Perf

inductive Topicsel where
  | ks
  | k32
  | k256
  | ou
  | uk16
  | uk1024
  | s16
  | s256
  | s4k
  | s32k
  deriving DecidableEq

/-- Whether `getkeyvalptr` finds a key in the sample. -/
def Topicsel.keyed : Topicsel → Bool
  | .ou | .uk16 | .uk1024 => false
  | .ks | .k32 | .k256 | .s16 | .s256 | .s4k | .s32k => true

/-- The fields of `union data` that the subscriber reads. -/
structure Data where
  seq : UInt32
  keyval : Option UInt32
  deriving DecidableEq

/-- What `process_data` passes on of a sample, and the participant that
`get_pphandle_for_pubhandle` would find for its publication. -/
structure Arrival where
  seq : UInt32
  keyval : UInt32
  size : UInt32
  tdelta : Int64
  pphandle : UInt64
  deriving DecidableEq

/-- The switch of `process_data`, for a sample whose payload has this size. -/
def Data.arrival (d : Data) (size : UInt32) (tdelta : Int64) (pphandle : UInt64) : Arrival where
  seq := d.seq
  keyval := d.keyval.getD 0
  size := size
  tdelta := tdelta
  pphandle := pphandle

/-- The sample of a publisher that has written `n` samples before. -/
def Data.nth (topicsel : Topicsel) (nkeyvals : UInt32) (n : Nat) : Data where
  seq := UInt32.ofNat n
  keyval := if topicsel.keyed then some (UInt32.ofNat (n % nkeyvals.toNat)) else none

/-- A sample as it is delivered: the place `n` it has among the samples of its publisher. -/
structure Delivery where
  n : Nat
  size : UInt32
  tdelta : Int64
  pphandle : UInt64
  deriving DecidableEq

def Delivery.arrival (topicsel : Topicsel) (nkeys : UInt32) (d : Delivery) : Arrival :=
  (Data.nth topicsel nkeys d.n).arrival d.size d.tdelta d.pphandle

/-- With a single key it does not matter whether the topic has one. -/
theorem keyval_arrival {topicsel : Topicsel} {nkeys : UInt32}
    (h : topicsel.keyed = true ∨ nkeys = 1) (d : Delivery) :
    (d.arrival topicsel nkeys).keyval = UInt32.ofNat (d.n % nkeys.toNat) := by
  unfold Delivery.arrival Data.nth Data.arrival
  cases hk : topicsel.keyed with
  | true => simp
  | false =>
    obtain rfl : nkeys = 1 := h.resolve_left (by simp [hk])
    simp [Nat.mod_one]

end DdsBenchmark.Perf
