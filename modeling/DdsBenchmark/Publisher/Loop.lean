import DdsBenchmark.Cputime.Monitor
import DdsBenchmark.Transport.Cyclone
import DdsBenchmark.Stream.Visits

/-! The publisher: its entities, then one message for each pass of the loop until it is told
to stop or the run time is over. The steady clock counts nanoseconds; it advances by what each
piece of work takes, by the sleep that fills the interval, and by however long the scheduler
holds the process up. -/

namespace DdsBenchmark.Publisher

open Cputime Transport Visits

inductive Command where
  | none
  | pub
  | sub
  | ping
  | pong
  deriving DecidableEq

structure Options where
  cmd : Command := .none
  domainId : ℤ := 0
  runTime : ℤ := 0
  keyCount : ℤ := 1
  rate : ℤ := 0
  payloadSize : ℕ := 256
  bestEffort : Bool := false
  monitor : Bool := false
  deriving DecidableEq

/-- What one pass of the loop meets: whether it is to run at all, what the system and the DDS
library answer, and how many nanoseconds go by, `wakeNs` up to the start of the pass,
`oversleepNs` beyond the requested sleep, `checkNs` up to the reading for the run time. -/
structure Pass where
  running : Bool
  wakeNs : ℕ
  systemMs : UInt64
  ddsThrows : Bool
  writeNs : ℕ
  proc : ProcFs
  snapshotNs : ℕ
  oversleepNs : ℕ
  checkNs : ℕ

/-- One message: when its pass started, what was written and what became of it. -/
structure Message where
  loopStart : ℕ
  data : TestData
  ret : Int32
  published : Option Sample

/-- The variables of the loop, with the reading of the clock that ended the last pass. -/
structure LoopState where
  seq : UInt64
  monitor : BcliMonitor
  snap : BcliSnapshot
  now : ℕ

/-- What the loop leaves unchanged. -/
structure Setup where
  opts : Options
  transport : CycloneTransport
  writer : Handle
  start : ℕ

/-- The interval between two messages in nanoseconds, a whole number of milliseconds. -/
def Options.intervalNs (opts : Options) : ℕ :=
  if opts.rate > 0 then (1000 / opts.rate).toNat * 1000000 else 0

namespace Setup
variable (pub : Setup) (s : LoopState) (pass : Pass)

/-! ### One pass -/

def loopStart (s : LoopState) (pass : Pass) : ℕ := s.now + pass.wakeNs

def message : Message :=
  let data := { seq := s.seq + 1, timestamp := pass.systemMs, baggage := "test" }
  let result := pub.transport.write pass.ddsThrows pub.writer data
  { loopStart := loopStart s pass, data, ret := result.1, published := result.2 }

/-- The snapshot taken with every hundredth message. -/
def snapshot : Option SnapshotResult :=
  if pub.opts.monitor ∧ (s.seq + 1) % 100 = 0 then some (s.monitor.snapshot pass.proc s.snap)
  else none

/-- The line printed when the snapshot is worth it. -/
def cpuLine : Option CpuLine :=
  (pub.snapshot s pass).bind fun r => if r.anyAbove then some (print r.out "".toList) else none

/-- The clock when the work of the pass is done. -/
def worked : ℕ :=
  loopStart s pass + pass.writeNs + if (pub.snapshot s pass).isSome then pass.snapshotNs else 0

/-- The clock after the sleep for the rest of the interval. -/
def rested : ℕ :=
  let elapsed := pub.worked s pass - loopStart s pass
  if pub.opts.rate > 0 ∧ elapsed < pub.opts.intervalNs then
    pub.worked s pass + (pub.opts.intervalNs - elapsed) + pass.oversleepNs
  else pub.worked s pass

/-- The clock at the end of the pass. -/
def checked : ℕ :=
  if pub.opts.runTime > 0 then pub.rested s pass + pass.checkNs else pub.rested s pass

/-- Whether the run time is over, in whole seconds. -/
def timeUp : Bool :=
  decide (pub.opts.runTime > 0 ∧
    (((pub.checked s pass - pub.start) / 1000000000 : ℕ) : ℤ) ≥ pub.opts.runTime)

def next : LoopState where
  seq := s.seq + 1
  monitor := ((pub.snapshot s pass).map SnapshotResult.monitor).getD s.monitor
  snap := ((pub.snapshot s pass).map SnapshotResult.out).getD s.snap
  now := pub.checked s pass

end Setup

/-! ### The loop -/

/-- What a run of the loop does: its messages, the lines printed behind `CPU: `, and the number
printed at the end, absent while the run goes on. -/
structure PublisherRun where
  messages : List Message
  cpuLines : List CpuLine
  sent : Option UInt64

/-- The loop on the passes it meets; where they end, so does what is known of the run. -/
def publisherLoop (pub : Setup) : LoopState → List Pass → PublisherRun
  | _, [] => ⟨[], [], none⟩
  | s, pass :: passes =>
    if pass.running then
      let rest := if pub.timeUp s pass then ⟨[], [], some (s.seq + 1)⟩
        else publisherLoop pub (pub.next s pass) passes
      { messages := pub.message s pass :: rest.messages
        cpuLines := (pub.cpuLine s pass).toList ++ rest.cpuLines
        sent := rest.sent }
    else ⟨[], [], some s.seq⟩

/-- Everything the publisher meets: the DDS constructors, the contents of the buffer it hands
to the monitor, the clock before the loop, and the passes. -/
structure Environment where
  ddsThrows : DdsEntity → Bool
  snap : BcliSnapshot
  start : ℕ
  passes : List Pass

/-- How the publisher ends: with a complaint, by an exception, or after its loop. -/
inductive Outcome where
  | failed (complaint : String)
  | threw (e : DdsEntity)
  | ran (run : PublisherRun)

def runPublisher (opts : Options) (env : Environment) : Outcome :=
  let (participant, transport) := CycloneTransport.new.createParticipant opts.domainId
  if participant = handleInvalid then .failed "Failed to create participant\n"
  else
    match transport.createTopic env.ddsThrows participant "BM_TalkData" "bm_test::TestData" with
    | .error e => .threw e
    | .ok (topic, transport) =>
      if topic = handleInvalid then .failed "Failed to create topic\n"
      else
        let (writer, transport) := transport.createWriter topic
        if writer = handleInvalid then .failed "Failed to create writer\n"
        else
          .ran (publisherLoop { opts, transport, writer, start := env.start }
            { seq := 0, monitor := BcliMonitor.new, snap := env.snap, now := env.start }
            env.passes)

/-- The publisher at the head of its loop. -/
def looping (opts : Options) (env : Environment) : Setup where
  opts := opts
  transport := ⟨some ⟨0, "BM_TalkData", true, false⟩, 3⟩
  writer := 1
  start := env.start

/-- The variables at the head of the loop. -/
def initial (env : Environment) : LoopState where
  seq := 0
  monitor := BcliMonitor.new
  snap := env.snap
  now := env.start

section Start
variable {opts : Options} {env : Environment}

/-- The publisher stands or falls with the entities that its topic constructs. -/
theorem runPublisher_eq : runPublisher opts env =
    match Impl.new env.ddsThrows 0 "BM_TalkData" with
    | .error e => .threw e
    | .ok impl =>
      let transport := ⟨some { impl with writerCreated := true }, 3⟩
      .ran (publisherLoop { looping opts env with transport } (initial env) env.passes) := by
  simp only [runPublisher, CycloneTransport.new, CycloneTransport.createParticipant,
    CycloneTransport.fresh]
  rw [if_neg (by decide), show (1 : Int32) + 1 = 2 from rfl,
    createTopic_of_none 2 env.ddsThrows 1 "BM_TalkData" "bm_test::TestData"]
  cases Impl.new env.ddsThrows 0 "BM_TalkData" <;> rfl

/-- An exception of the DDS library ends the publisher before its loop. -/
theorem runPublisher_of_error {e : DdsEntity}
    (h : Impl.new env.ddsThrows 0 "BM_TalkData" = .error e) : runPublisher opts env = .threw e := by
  rw [runPublisher_eq, h]

/-- Once the entities are there the publisher loops. -/
theorem runPublisher_of_ok
    (h : Impl.new env.ddsThrows 0 "BM_TalkData" = .ok ⟨0, "BM_TalkData", false, false⟩) :
    runPublisher opts env =
      .ran (publisherLoop (looping opts env) (initial env) env.passes) := by
  rw [runPublisher_eq, h]
  rfl

end Start

/-- The publisher loops exactly when none of the DDS constructors throws. -/
theorem runPublisher_eq_ran_iff (opts : Options) (env : Environment) (run : PublisherRun) :
    runPublisher opts env = .ran run ↔ (∀ e, env.ddsThrows e = false) ∧
      run = publisherLoop (looping opts env) (initial env) env.passes := by
  constructor
  · intro h
    cases himpl : Impl.new env.ddsThrows 0 "BM_TalkData" with
    | error e =>
      rw [runPublisher_of_error himpl] at h
      cases h
    | ok impl =>
      obtain ⟨hthrows, rfl⟩ := (implNew_eq_ok_iff _ _ _ _).mp himpl
      rw [runPublisher_of_ok himpl] at h
      exact ⟨hthrows, (Outcome.ran.inj h).symm⟩
  · rintro ⟨hthrows, rfl⟩
    exact runPublisher_of_ok ((implNew_eq_ok_iff _ _ _ _).mpr ⟨hthrows, rfl⟩)

/-- A write of the loop is what the DDS library makes of it. -/
theorem write_looping (opts : Options) (env : Environment) (throws : Bool) (data : TestData) :
    (looping opts env).transport.write throws (looping opts env).writer data =
      if throws then (retError, none) else (retOk, some ⟨0, "BM_TalkData", data⟩) :=
  write_of_writer ⟨0, "BM_TalkData", true, false⟩ 3 rfl throws 1 data

section Loop
variable {pub : Setup}

/-- The passes that the loop goes through before it stops. -/
def executed (pub : Setup) : LoopState → List Pass → List Pass
  | _, [] => []
  | s, pass :: passes =>
    if pass.running then
      pass :: if pub.timeUp s pass then [] else executed pub (pub.next s pass) passes
    else []

/-- A pass that runs writes its message, and the loop goes on until the time is up. -/
theorem messages_cons {s : LoopState} {pass : Pass} {passes : List Pass}
    (hrun : pass.running = true) :
    (publisherLoop pub s (pass :: passes)).messages = pub.message s pass ::
      if pub.timeUp s pass then [] else (publisherLoop pub (pub.next s pass) passes).messages := by
  rw [publisherLoop, if_pos hrun]
  split_ifs <;> rfl

/-- The messages of the loop are those of the passes it goes through. -/
theorem messages_eq (s : LoopState) (passes : List Pass) :
    (publisherLoop pub s passes).messages =
      (visits pub.next s (executed pub s passes)).map fun v => pub.message v.1 v.2 := by
  induction passes generalizing s with
  | nil => rfl
  | cons pass passes ih =>
    rw [executed]
    split_ifs with hrun hup
    · rw [messages_cons hrun, if_pos hup]
      rfl
    · rw [messages_cons hrun, if_neg hup, ih]
      rfl
    · rw [publisherLoop, if_neg hrun]
      rfl

@[simp] theorem length_messages (s : LoopState) (passes : List Pass) :
    (publisherLoop pub s passes).messages.length = (executed pub s passes).length := by
  rw [messages_eq, List.length_map, length_visits]

/-- The number printed is the counter after these passes. -/
theorem sent_eq {s : LoopState} {passes : List Pass} {n : UInt64}
    (h : (publisherLoop pub s passes).sent = some n) :
    n = s.seq + UInt64.ofNat (executed pub s passes).length := by
  induction passes generalizing s with
  | nil => cases h
  | cons pass passes ih =>
    rw [publisherLoop] at h
    rw [executed]
    split_ifs at h ⊢ with hrun hup
    · exact (Option.some.inj h).symm
    · rw [ih h, List.length_cons, Nat.add_comm, UInt64.ofNat_add, ← UInt64.add_assoc]
      rfl
    · exact (Option.some.inj h).symm.trans (UInt64.add_zero _).symm

end Loop

end DdsBenchmark.Publisher
