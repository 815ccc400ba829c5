import DdsBenchmark.Concurrency.Logged
import DdsBenchmark.Perf.Histogram
import DdsBenchmark.Perf.Samples
import Mathlib.Algebra.Order.Field.Rat
import Mathlib.Data.Rat.Cast.Order
import Mathlib.Tactic.FieldSimp

/-! The publishing thread of the performance tool, and the line that is printed about it every
second. A sample is written again until the write does not time out, so that the samples accepted
carry the numbers 0, 1, 2 and so on and the keys in turn. One reading of the clock serves for at
most ten samples, each line is about the samples behind the line before it, and a burst is started
only when the bursts before it keep to the rate. Values of type `double` are exact rationals, times
and the number of samples do not overflow. -/

namespace DdsBenchmark.Perf

open Logged

structure PubOptions where
  topicsel : Topicsel
  nkeyvals : UInt32
  pingFrac : UInt32
  /-- Bursts in a second, absent for `HUGE_VAL`. -/
  pubRate : Option ℚ
  burstsize : UInt32

inductive WriteResult where
  | ok
  | timeout
  | error
  deriving DecidableEq

/-- What one pass of the loop meets: the random number, the result of the write, the clock behind
it, and the readings of the clock while the thread is held back, up to the one at which the
termination flag is found set. -/
structure PubPass where
  random : UInt32
  result : WriteResult
  clock : ℤ
  readings : List ℤ

/-- What is done under the lock of the statistics: a pass of the loop records its sample, and the
printer comes by. -/
inductive PubOp where
  | pass (pass : PubPass)
  | report

structure PubState where
  seq : UInt32
  keyval : UInt32
  timeInterval : UInt32
  timeCounter : UInt32
  batchCounter : UInt32
  ntot : ℕ
  tWrite : ℤ
  timeouts : UInt64
  hist : Hist 30
  /-- The thread has found the flag set. -/
  terminated : Bool
  /-- The process has ended on a failed write. -/
  exited : Bool

/-- A call of `dds_write_ts`, with the state it is made in and what it meets, or a printed line. -/
inductive PubEvent where
  | write (s : PubState) (pass : PubPass)
  | line (l : Hist.Line 30)

/-- `hist_new (30, 1000, 0)`. -/
def pubstatHist : Hist 30 := .new 30 1000 0 rfl

namespace PubThread

variable (opts : PubOptions) (tfirst : ℤ)

def start : PubState where
  seq := 0
  keyval := 0
  timeInterval := 1
  timeCounter := 1
  batchCounter := 0
  ntot := 0
  tWrite := tfirst
  timeouts := 0
  hist := pubstatHist
  terminated := false
  exited := false

/-- Where `seqptr` and `keyvalptr` point. -/
def data (s : PubState) : Data where
  seq := s.seq
  keyval := if opts.topicsel.keyed then some s.keyval else none

/-- Whether the sample asks for a response. -/
def reqresp (pass : PubPass) : Bool :=
  if opts.pingFrac = 0 then false
  else if opts.pingFrac = -1 then true
  else decide (pass.random ≤ opts.pingFrac)

/-- The time stamp of the write, whose lowest bit asks for a response. -/
def stamp (s : PubState) (pass : PubPass) : ℤ :=
  s.tWrite - s.tWrite % 2 + if reqresp opts pass then 1 else 0

/-- The clock is read behind the write when the counter runs out. -/
def readsClock (s : PubState) : Bool := s.timeCounter == 1

def tPostWrite (s : PubState) (pass : PubPass) : ℤ :=
  if readsClock s then pass.clock else s.tWrite

/-- The value that the histogram records. -/
def duration (s : PubState) (pass : PubPass) : UInt64 :=
  UInt64.ofInt (tPostWrite s pass - s.tWrite)

/-- For how many samples the next reading is to serve. -/
def nextInterval (interval : UInt32) (dt : ℤ) : UInt32 :=
  if dt < 5000 ∧ interval < 10 then interval + 1
  else if dt > 1000 ∧ interval > 1 then (if dt > 10000 then 1 else interval - 1)
  else interval

/-- The state when the sample has been counted and the next one is set up. -/
def counted (s : PubState) (pass : PubPass) : PubState :=
  let tPost := tPostWrite s pass
  let dt := tPost - s.tWrite
  let interval := if s.timeCounter - 1 = 0 then nextInterval s.timeInterval dt else s.timeInterval
  { s with
    timeInterval := interval
    timeCounter := if s.timeCounter - 1 = 0 then interval else s.timeCounter - 1
    hist := s.hist.record (duration s pass) 1
    ntot := s.ntot + 1
    seq := s.seq + 1
    keyval := if opts.topicsel.keyed then (s.keyval + 1) % opts.nkeyvals else s.keyval
    tWrite := tPost }

/-- The seconds since the first reading and five milliseconds more. -/
def elapsed (s : PubState) : ℚ := (s.tWrite - tfirst : ℤ) / 1000000000 + 5 / 1000

/-- The comparison of the throttling loop. A division by zero is infinite, or no number. -/
def tooFast (rate : ℚ) (s : PubState) : Bool :=
  let bursts : ℚ := (s.ntot / opts.burstsize.toNat : ℕ)
  if elapsed tfirst s = 0 then decide (bursts > 0) else decide (bursts / elapsed tfirst s > rate)

/-- The throttling loop: a reading for each pass, until the flag is set. -/
def throttle (rate : ℚ) : List ℤ → PubState → PubState
  | [], s => { s with terminated := tooFast opts tfirst rate s }
  | now :: readings, s =>
    if tooFast opts tfirst rate s then
      throttle rate readings { s with tWrite := now, timeCounter := 1, timeInterval := 1 }
    else s

/-- The end of the pass, which at the end of a burst holds the thread back. -/
def paced (pass : PubPass) (s : PubState) : PubState :=
  match opts.pubRate with
  | none => s
  | some rate =>
    if s.batchCounter + 1 = opts.burstsize then
      { throttle opts tfirst rate pass.readings s with batchCounter := 0 }
    else { s with batchCounter := s.batchCounter + 1 }

def next (s : PubState) (pass : PubPass) : PubState :=
  match pass.result with
  | .ok => paced opts tfirst pass (counted opts s pass)
  | .timeout => { s with timeouts := s.timeouts + 1, timeCounter := 1, timeInterval := 1 }
  | .error => { s with exited := true }

/-- One operation. Nothing is done any more when the process has ended, or by the thread when the
flag is set. -/
def step (s : PubState) : PubOp → Option (PubState × Option PubEvent)
  | .pass pass =>
    if s.exited then none
    else if s.terminated then some (s, none)
    else some (next opts tfirst s pass, some (.write s pass))
  | .report =>
    if s.exited then none
    else some ({ s with hist := s.hist.reset }, some (.line s.hist.print))

/-- What the program checks of its options, and a burst of at least one sample. -/
structure Valid : Prop where
  nkeyvals : 0 < opts.nkeyvals.toNat
  burstsize : 0 < opts.burstsize.toNat
  pubRate : ∀ rate, opts.pubRate = some rate → 0 < rate

/-! ### What is told of a run -/

/-- The writes that were accepted. -/
def sentOf (log : List PubEvent) : List (PubState × PubPass) :=
  log.filterMap fun e => match e with
    | .write s pass => if pass.result = .ok then some (s, pass) else none
    | .line _ => none

/-- The values recorded since the last line, read from the end of the log. -/
def durationsSince : List PubEvent → List UInt64
  | [] => []
  | .write s pass :: log =>
    if pass.result = .ok then durationsSince log ++ [duration s pass] else durationsSince log
  | .line _ :: _ => []

/-- A write is for the sample behind those accepted, with the last reading of the clock up to the
lowest bit, and at the start of a burst the bursts before it keep to the rate. -/
structure Writes (before : List PubEvent) (s : PubState) (pass : PubPass) : Prop where
  ntot : s.ntot = (sentOf before).length
  data : data opts s = Data.nth opts.topicsel opts.nkeyvals s.ntot
  stamp : stamp opts s pass / 2 = s.tWrite / 2 ∧
    (stamp opts s pass % 2 = 1 ↔ reqresp opts pass = true)
  burst : ∀ rate, opts.pubRate = some rate → s.batchCounter = 0 → 0 < elapsed tfirst s →
    (s.ntot : ℚ) ≤ opts.burstsize.toNat * (rate * elapsed tfirst s)

/-- What is right about an entry of the log. -/
def Says (before : List PubEvent) : PubEvent → Prop
  | .write s pass => Writes opts tfirst before s pass
  | .line l => (durationsSince before.reverse).length < 2 ^ 61 →
    Hist.Describes pubstatHist.toBins l (durationsSince before.reverse)

/-! ### What is kept at the head of the loop -/

/-- The counter, and how many samples in a row go without a reading of the clock. -/
structure Clocked (s : PubState) (sent : List (PubState × PubPass)) : Prop where
  pos : 1 ≤ s.timeCounter.toNat
  le : s.timeCounter.toNat ≤ s.timeInterval.toNat
  most : s.timeInterval.toNat ≤ 10
  behind : ∀ block, block <:+ sent → (∀ v ∈ block, readsClock v.1 = false) →
    block.length + s.timeCounter.toNat ≤ 10
  within : ∀ block, block <:+: sent → (∀ v ∈ block, readsClock v.1 = false) → block.length < 10

/-- The sample to be written is the one with the number of those accepted. -/
structure Numbered (s : PubState) : Prop where
  seq : s.seq = UInt32.ofNat s.ntot
  keyval : opts.topicsel.keyed = true → s.keyval = UInt32.ofNat (s.ntot % opts.nkeyvals.toNat)

/-- The place in the burst, and at its start the pace of the bursts before. -/
structure Throttled (s : PubState) : Prop where
  place : opts.pubRate.isSome → s.batchCounter.toNat = s.ntot % opts.burstsize.toNat
  pace : ∀ rate, opts.pubRate = some rate → s.batchCounter = 0 → s.terminated = false →
    tooFast opts tfirst rate s = false

theorem clocked_nextInterval {interval : UInt32} (h : 1 ≤ interval.toNat ∧ interval.toNat ≤ 10)
    (dt : ℤ) : 1 ≤ (nextInterval interval dt).toNat ∧ (nextInterval interval dt).toNat ≤ 10 := by
  have hlt : interval < 10 ↔ interval.toNat < 10 := UInt32.lt_iff_toNat_lt
  have hgt : interval > 1 ↔ 1 < interval.toNat := UInt32.lt_iff_toNat_lt
  unfold nextInterval
  split_ifs with h1 h2 h3
  · rw [hlt] at h1
    rw [UInt32.toNat_add, UInt32.toNat_one]
    omega
  · decide
  · rw [hgt] at h2
    rw [UInt32.toNat_sub_of_le _ _ (UInt32.le_iff_toNat_le.mpr (by rw [UInt32.toNat_one]; omega)),
      UInt32.toNat_one]
    omega
  · exact h

theorem toNat_timeCounter_pred {s : PubState} (h : 1 ≤ s.timeCounter.toNat) :
    (s.timeCounter - 1).toNat = s.timeCounter.toNat - 1 :=
  UInt32.toNat_sub_of_le _ _ (UInt32.le_iff_toNat_le.mpr h)

theorem readsClock_iff {s : PubState} : readsClock s = true ↔ s.timeCounter.toNat = 1 := by
  rw [readsClock, beq_iff_eq, ← UInt32.toNat_inj, UInt32.toNat_one]

/-- A row of samples at the end of those accepted is empty or ends with the last of them. -/
theorem Clocked.counted {s : PubState} {sent : List (PubState × PubPass)} (h : Clocked s sent)
    (pass : PubPass) : Clocked (counted opts s pass) (sent ++ [(s, pass)]) := by
  obtain ⟨hpos, hle, hmost, hbehind, hwithin⟩ := h
  have hsub := toNat_timeCounter_pred hpos
  -- the counter behind the sample, and how it was brought there
  have hcounter : 1 ≤ (PubThread.counted opts s pass).timeCounter.toNat ∧
      (PubThread.counted opts s pass).timeCounter.toNat ≤
        (PubThread.counted opts s pass).timeInterval.toNat ∧
      (PubThread.counted opts s pass).timeInterval.toNat ≤ 10 ∧
      (readsClock s = false →
        (PubThread.counted opts s pass).timeCounter.toNat + 1 = s.timeCounter.toNat) := by
    by_cases hz : s.timeCounter - 1 = 0
    · have hone : readsClock s = true := by
        rw [readsClock_iff]
        have := congrArg UInt32.toNat hz
        rw [hsub, UInt32.toNat_zero] at this
        omega
      have hn := clocked_nextInterval ⟨by omega, hmost⟩ (tPostWrite s pass - s.tWrite)
      simp only [PubThread.counted, if_pos hz, hone]
      exact ⟨hn.1, le_rfl, hn.2, by simp⟩
    · have hpos' : (s.timeCounter - 1).toNat ≠ 0 := fun h0 => hz (UInt32.toNat_inj.mp h0)
      simp only [PubThread.counted, if_neg hz]
      exact ⟨by omega, by omega, hmost, fun _ => by omega⟩
  obtain ⟨hpos', hle', hmost', hdown⟩ := hcounter
  have hbehind' : ∀ block, block <:+ sent ++ [(s, pass)] →
      (∀ v ∈ block, readsClock v.1 = false) →
        block.length + (PubThread.counted opts s pass).timeCounter.toNat ≤ 10 := by
    intro block hblock hno
    rcases List.suffix_concat_iff.mp hblock with rfl | ⟨row, rfl, hrow⟩
    · rw [List.length_nil]
      omega
    · have hrest := hbehind row hrow fun v hv => hno v (List.mem_append_left _ hv)
      have hlast := hdown (hno (s, pass) (by simp))
      rw [List.length_append, List.length_singleton]
      omega
  refine ⟨hpos', hle', hmost', hbehind', fun block hblock hno => ?_⟩
  rcases List.infix_concat_iff.mp hblock with hsuffix | hinfix
  · have := hbehind' block hsuffix hno
    omega
  · exact hwithin block hinfix hno

/-- A reading of the clock on the way. -/
theorem Clocked.restart {s t : PubState} {sent : List (PubState × PubPass)} (h : Clocked s sent)
    (ht : (t.timeCounter = s.timeCounter ∧ t.timeInterval = s.timeInterval) ∨
      (t.timeCounter = 1 ∧ t.timeInterval = 1)) : Clocked t sent := by
  obtain ⟨hpos, hle, hmost, hbehind, hwithin⟩ := h
  rcases ht with ⟨hc, hi⟩ | ⟨hc, hi⟩
  · exact ⟨hc ▸ hpos, hc ▸ hi ▸ hle, hi ▸ hmost, hc ▸ hbehind, hwithin⟩
  · refine ⟨by rw [hc]; decide, by rw [hc, hi], by rw [hi]; decide, fun block hb hno => ?_, hwithin⟩
    have := hbehind block hb hno
    rw [hc, UInt32.toNat_one]
    omega

theorem Numbered.counted {s : PubState} (h : Numbered opts s) (hv : Valid opts) (pass : PubPass) :
    Numbered opts (counted opts s pass) where
  seq := by
    show s.seq + 1 = UInt32.ofNat (s.ntot + 1)
    rw [h.seq, UInt32.ofNat_add]
    rfl
  keyval hk := by
    have hn := hv.nkeyvals
    have hlt := opts.nkeyvals.toNat_lt
    have hmod := Nat.mod_lt s.ntot hn
    simp only [PubThread.counted, if_pos hk]
    rw [h.keyval hk, ← UInt32.toNat_inj, UInt32.toNat_mod, UInt32.toNat_add, UInt32.toNat_one,
      UInt32.toNat_ofNat_of_lt' (show s.ntot % opts.nkeyvals.toNat < 2 ^ 32 by omega),
      Nat.mod_eq_of_lt (show s.ntot % opts.nkeyvals.toNat + 1 < 2 ^ 32 by omega), Nat.mod_add_mod,
      UInt32.toNat_ofNat_of_lt']
    show (s.ntot + 1) % opts.nkeyvals.toNat < 2 ^ 32
    have := Nat.mod_lt (s.ntot + 1) hn
    omega

/-- What throttling and the end of a pass leave alone. -/
structure SameSample (t s : PubState) : Prop where
  seq : t.seq = s.seq
  keyval : t.keyval = s.keyval
  ntot : t.ntot = s.ntot
  hist : t.hist = s.hist
  clock : (t.timeCounter = s.timeCounter ∧ t.timeInterval = s.timeInterval) ∨
    (t.timeCounter = 1 ∧ t.timeInterval = 1)

/-- Throttling moves the clock and its counters, and ends below the rate unless the thread does. -/
theorem throttle_spec (rate : ℚ) (readings : List ℤ) {s : PubState} (ht : s.terminated = false) :
    let r := throttle opts tfirst rate readings s
    SameSample r s ∧ (r.terminated = false → tooFast opts tfirst rate r = false) := by
  induction readings generalizing s with
  | nil => exact ⟨⟨rfl, rfl, rfl, rfl, .inl ⟨rfl, rfl⟩⟩, fun h => h⟩
  | cons now readings ih =>
    rw [throttle]
    by_cases hf : tooFast opts tfirst rate s = true
    · rw [if_pos hf]
      obtain ⟨⟨hseq, hkeyval, hntot, hhist, hclock⟩, hpace⟩ :=
        ih (s := { s with tWrite := now, timeCounter := 1, timeInterval := 1 }) ht
      exact ⟨⟨hseq, hkeyval, hntot, hhist, .inr (by simpa using hclock)⟩, hpace⟩
    · rw [if_neg hf]
      exact ⟨⟨rfl, rfl, rfl, rfl, .inl ⟨rfl, rfl⟩⟩, fun _ => by simpa using hf⟩

theorem paced_of_none (pass : PubPass) (s : PubState) (hr : opts.pubRate = none) :
    paced opts tfirst pass s = s := by simp [paced, hr]

theorem paced_of_end (pass : PubPass) {s : PubState} {rate : ℚ} (hr : opts.pubRate = some rate)
    (hb : s.batchCounter + 1 = opts.burstsize) :
    paced opts tfirst pass s =
      { throttle opts tfirst rate pass.readings s with batchCounter := 0 } := by
  simp [paced, hr, hb]

theorem paced_of_room (pass : PubPass) {s : PubState} {rate : ℚ} (hr : opts.pubRate = some rate)
    (hb : s.batchCounter + 1 ≠ opts.burstsize) :
    paced opts tfirst pass s = { s with batchCounter := s.batchCounter + 1 } := by
  simp [paced, hr, hb]

theorem paced_spec (pass : PubPass) {s : PubState} (ht : s.terminated = false) :
    SameSample (paced opts tfirst pass s) s := by
  cases hr : opts.pubRate with
  | none =>
    rw [paced_of_none opts tfirst pass s hr]
    exact ⟨rfl, rfl, rfl, rfl, .inl ⟨rfl, rfl⟩⟩
  | some rate =>
    by_cases hb : s.batchCounter + 1 = opts.burstsize
    · obtain ⟨⟨hseq, hkeyval, hntot, hhist, hclock⟩, -⟩ :=
        throttle_spec opts tfirst rate pass.readings ht
      rw [paced_of_end opts tfirst pass hr hb]
      exact ⟨hseq, hkeyval, hntot, hhist, hclock⟩
    · rw [paced_of_room opts tfirst pass hr hb]
      exact ⟨rfl, rfl, rfl, rfl, .inl ⟨rfl, rfl⟩⟩

theorem succ_mod_of_lt {n b : ℕ} (h : n % b + 1 < b) : (n + 1) % b = n % b + 1 := by
  rw [← Nat.mod_add_mod, Nat.mod_eq_of_lt h]

theorem succ_mod_of_eq {n b : ℕ} (h : n % b + 1 = b) : (n + 1) % b = 0 := by
  rw [← Nat.mod_add_mod, h, Nat.mod_self]

theorem Throttled.ok {s : PubState} (h : Throttled opts tfirst s) (hv : Valid opts)
    (ht : s.terminated = false) (pass : PubPass) :
    Throttled opts tfirst (paced opts tfirst pass (PubThread.counted opts s pass)) := by
  obtain ⟨-, hpos, -⟩ := hv
  cases hr : opts.pubRate with
  | none => exact ⟨by simp [hr], by simp [hr]⟩
  | some rate =>
    have hplace := h.place (by simp [hr])
    have hlt := Nat.mod_lt s.ntot hpos
    have hburst := opts.burstsize.toNat_lt
    have hsucc : (s.batchCounter + 1).toNat = s.ntot % opts.burstsize.toNat + 1 := by
      rw [UInt32.toNat_add, UInt32.toNat_one, hplace]
      exact Nat.mod_eq_of_lt (by omega)
    by_cases hb : s.batchCounter + 1 = opts.burstsize
    · have hfull : s.ntot % opts.burstsize.toNat + 1 = opts.burstsize.toNat := by
        rw [← hsucc, hb]
      obtain ⟨⟨-, -, hntot, -, -⟩, hpace⟩ :=
        throttle_spec opts tfirst rate pass.readings (s := PubThread.counted opts s pass) ht
      rw [paced_of_end opts tfirst pass (s := PubThread.counted opts s pass) hr hb]
      refine ⟨fun _ => ?_, fun rate' hrate' _ hterm => ?_⟩
      · dsimp only
        rw [hntot]
        exact (succ_mod_of_eq hfull).symm
      · obtain rfl : rate = rate' := by simpa [hr] using hrate'
        exact hpace hterm
    · have hroom : s.ntot % opts.burstsize.toNat + 1 < opts.burstsize.toNat := by
        have hne : (s.batchCounter + 1).toNat ≠ opts.burstsize.toNat :=
          fun he => hb (UInt32.toNat_inj.mp he)
        omega
      rw [paced_of_room opts tfirst pass (s := PubThread.counted opts s pass) hr hb]
      refine ⟨fun _ => ?_, fun _ _ hzero _ => ?_⟩
      · exact hsucc.trans (succ_mod_of_lt hroom).symm
      · have hz : (s.batchCounter + 1).toNat = 0 := congrArg UInt32.toNat hzero
        omega

theorem samples_le_of_not_tooFast {rate : ℚ} {s : PubState}
    (h : tooFast opts tfirst rate s = false) (hplace : s.ntot % opts.burstsize.toNat = 0)
    (hpos : 0 < elapsed tfirst s) :
    (s.ntot : ℚ) ≤ opts.burstsize.toNat * (rate * elapsed tfirst s) := by
  rw [tooFast, if_neg hpos.ne', decide_eq_false_iff_not, gt_iff_lt, not_lt, div_le_iff₀ hpos] at h
  have hn : s.ntot = opts.burstsize.toNat * (s.ntot / opts.burstsize.toNat) :=
    (Nat.mul_div_cancel' (Nat.dvd_of_mod_eq_zero hplace)).symm
  calc (s.ntot : ℚ) = opts.burstsize.toNat * ((s.ntot / opts.burstsize.toNat : ℕ) : ℚ) := by
        rw [← Nat.cast_mul, ← hn]
    _ ≤ opts.burstsize.toNat * (rate * elapsed tfirst s) :=
        mul_le_mul_of_nonneg_left h (Nat.cast_nonneg _)

/-- What a run keeps of the state and the log. -/
structure Kept (s : PubState) (log : List PubEvent) : Prop where
  clocked : Clocked s (sentOf log)
  numbered : Numbered opts s
  throttled : Throttled opts tfirst s
  ntot : s.ntot = (sentOf log).length
  toBins : s.hist.toBins = pubstatHist.toBins
  holds : s.hist.Holds (durationsSince log.reverse)
  told : Told (Says opts tfirst) log

theorem kept_start (hv : Valid opts) : Kept opts tfirst (start tfirst) [] where
  clocked := by
    refine ⟨le_rfl, le_rfl, by show 1 ≤ 10; omega, fun block hb _ => ?_, fun block hb _ => ?_⟩
    · rw [List.suffix_nil.mp hb]
      show 0 + 1 ≤ 10
      omega
    · rw [List.infix_nil.mp hb]
      show 0 < 10
      omega
  numbered := ⟨rfl, fun _ => by rw [start, Nat.zero_mod]; rfl⟩
  throttled := by
    refine ⟨fun _ => (Nat.zero_mod _).symm, fun rate hrate _ _ => ?_⟩
    have hpos := hv.pubRate rate hrate
    have he : elapsed tfirst (start tfirst) = 5 / 1000 := by simp [elapsed, start]
    rw [tooFast, he]
    simp [start, hpos.le]
  ntot := rfl
  toBins := rfl
  holds := Hist.holds_reset _
  told := told_nil _

section Step
variable {s : PubState} {log : List PubEvent} (h : Kept opts tfirst s log) (pass : PubPass)
include h

/-- A write is made from a state as at the head of the loop. -/
theorem Kept.writes (ht : s.terminated = false) : Writes opts tfirst log s pass where
  ntot := h.ntot
  data := by
    rw [PubThread.data, Data.nth, h.numbered.seq]
    cases hk : opts.topicsel.keyed with
    | true => rw [if_pos rfl, if_pos rfl, h.numbered.keyval hk]
    | false => rfl
  stamp := by
    unfold PubThread.stamp
    cases reqresp opts pass <;> simp <;> omega
  burst rate hrate hb hpos := by
    have hplace := h.throttled.place (by simp [hrate])
    rw [hb] at hplace
    exact samples_le_of_not_tooFast opts tfirst (h.throttled.pace rate hrate hb ht) hplace.symm hpos

theorem Kept.ok (hv : Valid opts) (ht : s.terminated = false) (hok : pass.result = .ok) :
    Kept opts tfirst (paced opts tfirst pass (PubThread.counted opts s pass))
      (log ++ [.write s pass]) := by
  obtain ⟨hseq, hkeyval, hntot, hhist, hclock⟩ :=
    paced_spec opts tfirst pass (s := PubThread.counted opts s pass) ht
  have hn := h.numbered.counted opts hv pass
  have hsent : sentOf (log ++ [.write s pass]) = sentOf log ++ [(s, pass)] := by
    rw [sentOf, List.filterMap_append]
    simp [sentOf, hok]
  have hsince : durationsSince (log ++ [PubEvent.write s pass]).reverse =
      durationsSince log.reverse ++ [duration s pass] := by
    rw [List.reverse_append]
    exact if_pos hok
  constructor
  · rw [hsent]
    exact (h.clocked.counted opts pass).restart hclock
  · exact ⟨by rw [hseq, hntot, hn.seq], fun hk => by rw [hkeyval, hntot, hn.keyval hk]⟩
  · exact h.throttled.ok opts tfirst hv ht pass
  · rw [hntot, hsent, List.length_append, ← h.ntot]
    rfl
  · rw [hhist]
    exact (Hist.toBins_record ..).trans h.toBins
  · rw [hhist, hsince]
    exact h.holds.record _
  · exact h.told.concat (h.writes opts tfirst pass ht)

/-- A write that fails leaves the sample to be written and the statistics as they are. -/
theorem Kept.failed (ht : s.terminated = false) (hok : pass.result ≠ .ok) {t : PubState}
    (hsame : SameSample t s) (hbatch : t.batchCounter = s.batchCounter)
    (htwrite : t.tWrite = s.tWrite) :
    Kept opts tfirst t (log ++ [.write s pass]) := by
  obtain ⟨hseq, hkeyval, hntot, hhist, hclock⟩ := hsame
  have hsent : sentOf (log ++ [.write s pass]) = sentOf log := by
    rw [sentOf, List.filterMap_append]
    simp [sentOf, hok]
  have hsince : durationsSince (log ++ [PubEvent.write s pass]).reverse =
      durationsSince log.reverse := by
    rw [List.reverse_append]
    exact if_neg hok
  have hfast : ∀ rate, tooFast opts tfirst rate t = tooFast opts tfirst rate s := fun rate => by
    have helapsed : elapsed tfirst t = elapsed tfirst s := by rw [elapsed, elapsed, htwrite]
    rw [tooFast, tooFast, hntot, helapsed]
  constructor
  · rw [hsent]
    exact h.clocked.restart hclock
  · exact ⟨by rw [hseq, hntot, h.numbered.seq], fun hk => by
      rw [hkeyval, hntot, h.numbered.keyval hk]⟩
  · exact ⟨fun hr => by rw [hbatch, hntot, h.throttled.place hr], fun rate hr hb _ => by
      rw [hfast]
      exact h.throttled.pace rate hr (hbatch ▸ hb) ht⟩
  · rw [hntot, hsent, h.ntot]
  · rw [hhist, h.toBins]
  · rw [hhist, hsince]
    exact h.holds
  · exact h.told.concat (h.writes opts tfirst pass ht)

omit pass in
/-- The printer says what was recorded and lets it begin anew. -/
theorem Kept.report :
    Kept opts tfirst { s with hist := s.hist.reset } (log ++ [.line s.hist.print]) := by
  have hsent : sentOf (log ++ [.line s.hist.print]) = sentOf log := by
    rw [sentOf, List.filterMap_append]
    exact List.append_nil _
  have hsince : durationsSince (log ++ [PubEvent.line s.hist.print]).reverse = [] := by
    rw [List.reverse_append]
    rfl
  constructor
  · rw [hsent]
    exact h.clocked.restart (.inl ⟨rfl, rfl⟩)
  · exact ⟨h.numbered.seq, h.numbered.keyval⟩
  · exact ⟨h.throttled.place, h.throttled.pace⟩
  · rw [hsent]
    exact h.ntot
  · exact h.toBins
  · rw [hsince]
    exact Hist.holds_reset _
  · refine h.told.concat fun hlen => ?_
    rw [← h.toBins]
    exact h.holds.print hlen

end Step

theorem Kept.step (hv : Valid opts) {s : PubState} {log : List PubEvent}
    (h : Kept opts tfirst s log) {op : PubOp} {r : PubState × Option PubEvent}
    (hr : step opts tfirst s op = some r) : Kept opts tfirst r.1 (log ++ r.2.toList) := by
  cases op with
  | report =>
    simp only [PubThread.step] at hr
    split_ifs at hr
    obtain rfl := Option.some.inj hr
    exact h.report opts tfirst
  | pass pass =>
    simp only [PubThread.step] at hr
    split_ifs at hr with hexit ht
    · obtain rfl := Option.some.inj hr
      rwa [Option.toList_none, List.append_nil]
    · obtain rfl := Option.some.inj hr
      rw [Bool.not_eq_true] at ht
      show Kept opts tfirst (next opts tfirst s pass) (log ++ [.write s pass])
      rw [next]
      cases hres : pass.result with
      | ok => exact h.ok opts tfirst pass hv ht hres
      | timeout =>
        exact h.failed opts tfirst pass ht (by simp [hres])
          ⟨rfl, rfl, rfl, rfl, .inr ⟨rfl, rfl⟩⟩ rfl rfl
      | error =>
        exact h.failed opts tfirst pass ht (by simp [hres])
          ⟨rfl, rfl, rfl, rfl, .inl ⟨rfl, rfl⟩⟩ rfl rfl

/-- The thread and the printer from the start. -/
def run (ops : List PubOp) : Option (PubState × List PubEvent) :=
  Logged.run (step opts tfirst) (start tfirst) [] ops

/-- Two keys, bursts of two samples at 100 bursts a second. -/
def twoKeys : PubOptions := ⟨.ks, 2, 0, some 100, 2⟩

/-- A write that times out, a wait at the end of the burst, and two lines. -/
def sixOps : List PubOp :=
  [.pass ⟨0, .ok, 1000, []⟩, .pass ⟨0, .timeout, 0, []⟩, .report,
    .pass ⟨0, .ok, 2000, [1000000, 30000000]⟩, .pass ⟨0, .ok, 30001000, []⟩, .report]

theorem valid_twoKeys : Valid twoKeys :=
  ⟨by decide, by decide, by
    rintro rate h
    rw [← Option.some.inj h]
    decide⟩

end PubThread

end DdsBenchmark.Perf
