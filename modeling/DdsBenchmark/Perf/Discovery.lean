import DdsBenchmark.Concurrency.Runs
import DdsBenchmark.Perf.Participants
import DdsBenchmark.Perf.PongWriters

/-! Discovery in the performance tool. The listener for participants runs in the thread of the
event queue, and once in `main` itself, when that thread may already be in it; matched endpoints are
reported, the deadlines looked at and pong writers asked for in any order. What is under `disc_lock`
and what is under `pongwr_lock` changes in one step; a listener call is not over between two of its
locks, and it deletes pong writers while it holds the first lock. Of a new participant it reads the
record again behind the lock, when another call may have freed it. -/

namespace DdsBenchmark.Perf.Discovery

variable {P ι : Type} [DecidableEq P] [DecidableEq ι]

/-- The middleware as the process sees it: the key of the participant behind a handle, and the
participant of a publication. -/
structure Setting extends Local where
  key : UInt64 → Guid
  owner : UInt64 → UInt64

/-- The partition of the pong reader of a participant. -/
def Setting.part (cfg : Setting) (handle : UInt64) : List Char := makeGuidstr (cfg.key handle)

/-- Where a call of `async_participant_data_listener` stands, with its `n_pong_expected_delta`. It
holds `disc_lock` at `gone`. -/
inductive CallAt (ι : Type) where
  | idle
  | taking (delta : UInt32)
  | gone (delta : UInt32) (a : ι)
  | creating (delta : UInt32) (a : ι) (handle : UInt64)
  deriving DecidableEq

/-- The shared data and where every call stands; `writers` has the partitions of the pong writers
that exist in the middleware. -/
structure State (P ι : Type) where
  admin : Ppants ι
  disc : Option P
  pongwr : List PongWr
  writers : Int32 → Option (List Char)
  nPongExpected : UInt32
  callers : P → CallAt ι

def State.new : State P ι where
  admin := .new
  disc := none
  pongwr := []
  writers := fun _ => none
  nPongExpected := 0
  callers := fun _ => .idle

def State.moveCaller (s : State P ι) (p : P) (pc : CallAt ι) : State P ι :=
  { s with callers := Function.update s.callers p pc }

omit [DecidableEq ι] in
@[simp] theorem callers_moveCaller_self (s : State P ι) (p : P) (pc : CallAt ι) :
    (s.moveCaller p pc).callers p = pc := Function.update_self ..

omit [DecidableEq ι] in
theorem callers_moveCaller_of_ne {s : State P ι} {p q : P} {pc : CallAt ι} (h : q ≠ p) :
    (s.moveCaller p pc).callers q = s.callers q := Function.update_of_ne h ..

/-- What a step is about. -/
inductive Move (P : Type) where
  | caller (p : P)
  | gone (p : P) (handle : UInt64)
  | discovered (p : P) (handle : UInt64) (ann : Announcement) (rdData : Bool)
  | matched (mask : UInt32) (handle : UInt64)
  | deadlines (now : ℤ)
  | pong (pubhandle pphandle : UInt64) (wrPong : Int32)
  deriving DecidableEq

/-- The steps of the listener calls, then those of the other threads. -/
inductive Step (cfg : Setting) : State P ι → Move P → State P ι → Prop
  | begin {s} {p : P} (hpc : s.callers p = .idle) :
    Step cfg s (.caller p) (s.moveCaller p (.taking 0))
  -- a participant that is not alive, known or not
  | unknown {s} {p : P} {delta} {handle} (hpc : s.callers p = .taking delta)
      (hfree : s.disc = none) (hlookup : s.admin.lookup handle = none) :
    Step cfg s (.gone p handle) s
  | drop {s} {p : P} {delta} {a : ι} {pp} (hpc : s.callers p = .taking delta)
      (hfree : s.disc = none) {handle} (hlookup : s.admin.lookup handle = some (a, pp)) :
    Step cfg s (.gone p handle)
      { s.moveCaller p (.gone (if cfg.counts pp.handle then delta - 1 else delta) a) with
        disc := some p
        pongwr := if cfg.counts pp.handle then (deletePongWriter s.pongwr pp.handle).1
          else s.pongwr }
  | remove {s} {p : P} {delta} {a : ι} {pp} (hpc : s.callers p = .gone delta a)
      (hmem : s.admin.mem a = some pp) :
    Step cfg s (.caller p)
      { s.moveCaller p (.taking delta) with admin := s.admin.remove a pp, disc := none }
  -- a participant that is alive: not one of the tool, known, or new
  | other {s} {p : P} {delta} {udata : List Char} (hpc : s.callers p = .taking delta)
      (hann : announcement udata = none) : Step cfg s (.caller p) s
  | known {s} {p : P} {delta} {handle} {r} (hpc : s.callers p = .taking delta)
      (hfree : s.disc = none) (hlookup : s.admin.lookup handle = some r) :
    Step cfg s (.caller p) s
  | discover {s} {p : P} {delta} {handle} {udata : List Char} {ann} {rdData : Bool} {now : ℤ}
      {a : ι} (hpc : s.callers p = .taking delta) (hhandle : handle ≠ 0)
      (hann : announcement udata = some ann) (hfree : s.disc = none)
      (hlookup : s.admin.lookup handle = none) (hmalloc : s.admin.mem a = none)
      (hclock : now + secs 5 < never) :
    Step cfg s (.discovered p handle ann rdData)
      { s.moveCaller p (if cfg.counts handle then .creating delta a handle
        else .taking delta) with
        admin := s.admin.insert a (newPpant cfg.toLocal handle (cfg.key handle) ann rdData now) }
  -- `pp->handle` is read behind the lock: without the record this is not defined, and the run ends
  | create {s} {p : P} {delta} {a : ι} {handle} {pp} {wr : Int32}
      (hpc : s.callers p = .creating delta a handle) (hmem : s.admin.mem a = some pp)
      (hsame : pp.handle = handle) (hwr : wr ≠ 0) (hfresh : s.writers wr = none) :
    Step cfg s (.caller p)
      { s.moveCaller p (.taking (delta + 1)) with
        pongwr := addPongWriter s.pongwr pp.handle wr
        writers := Function.update s.writers wr (some (cfg.part handle)) }
  | finish {s} {p : P} {delta} (hpc : s.callers p = .taking delta) :
    Step cfg s (.caller p)
      { s.moveCaller p .idle with nPongExpected := s.nPongExpected + delta }
  | matched {s} {mask : UInt32} {handle} (hfree : s.disc = none) :
    Step cfg s (.matched mask handle)
      { s with admin := s.admin.endpointMatched mask handle }
  | deadlines {s} {now : ℤ} (hfree : s.disc = none) :
    Step cfg s (.deadlines now) { s with admin := s.admin.expire now }
  -- the middleware may no longer know the publication, and then has no participant for it
  | pong {s} {pubhandle pphandle} (hpub : pubhandle ≠ 0)
      (hread : pphandle = 0 ∨ pphandle = cfg.owner pubhandle) :
    Step cfg s (.pong pubhandle pphandle (getPongWriterLocked s.pongwr pubhandle pphandle).2)
      { s with pongwr := (getPongWriterLocked s.pongwr pubhandle pphandle).1 }

/-- The states a run from the start of the process reaches. -/
def Reachable (cfg : Setting) (s : State P ι) : Prop :=
  ∃ ks, Concurrency.Run (Step cfg) State.new ks s

theorem Reachable.invariant {cfg : Setting} {I : State P ι → Prop} (hnew : I State.new)
    (hstep : ∀ s k t, I s → Step cfg s k t → I t) {s : State P ι} (h : Reachable cfg s) : I s := by
  obtain ⟨ks, hrun⟩ := h
  exact hrun.invariant hstep hnew

/-! ### The records -/

/-- The records are sound, `disc_lock` is held between two steps by the call that takes a
participant off and by no other, and its record is still there. -/
structure Kept (s : State P ι) : Prop where
  sound : s.admin.Sound
  holder : ∀ p delta a, s.callers p = .gone delta a → s.disc = some p ∧ (s.admin.mem a).isSome

omit [DecidableEq P] [DecidableEq ι] in
theorem kept_new : Kept (State.new : State P ι) := ⟨Ppants.sound_new, fun _ _ _ h => by cases h⟩

section Kept
variable {cfg : Setting} {s t : State P ι}

omit [DecidableEq ι] in
/-- A call that moves on to a place without the lock. -/
theorem gone_of_moveCaller {p q : P} {pc : CallAt ι} {delta : UInt32} {a : ι}
    (hpc : ∀ delta a, pc ≠ .gone delta a) (h : (s.moveCaller p pc).callers q = .gone delta a) :
    s.callers q = .gone delta a := by
  by_cases hq : q = p
  · subst hq
    exact absurd ((callers_moveCaller_self ..).symm.trans h) (hpc delta a)
  · exact (callers_moveCaller_of_ne hq).symm.trans h

theorem Kept.step (hs : Kept s) {k : Move P} (h : Step cfg s k t) : Kept t := by
  have hidle {q : P} {delta : UInt32} {a : ι} (hfree : s.disc = none)
      (hq : s.callers q = .gone delta a) : False := by
    have hholds := (hs.holder q delta a hq).1
    rw [hfree] at hholds
    cases hholds
  cases h with
  | @begin p hpc =>
    exact ⟨hs.sound, fun q d a hq =>
      hs.holder q d a (gone_of_moveCaller (fun _ _ h => by cases h) hq)⟩
  | unknown hpc hfree hlookup => exact hs
  | @drop p delta a pp hpc hfree handle hlookup =>
    have hmem := ((Ppants.lookup_eq_some_iff hs.sound).mp hlookup).1
    have hthere : (s.admin.mem a).isSome := by
      rw [hmem]
      rfl
    refine ⟨hs.sound, fun q d b hq => ?_⟩
    by_cases hqp : q = p
    · subst hqp
      have hsome := (callers_moveCaller_self ..).symm.trans hq
      obtain ⟨-, rfl⟩ := CallAt.gone.inj hsome
      exact ⟨rfl, hthere⟩
    · have hq' := (callers_moveCaller_of_ne hqp).symm.trans hq
      exact (hidle hfree hq').elim
  | @remove p delta a pp hpc hmem =>
    refine ⟨hs.sound.remove hmem, fun q d b hq => ?_⟩
    have hq' := gone_of_moveCaller (fun _ _ h => by cases h) hq
    have hp := (hs.holder p delta a hpc).1
    have hheld := (hs.holder q d b hq').1
    rw [hp] at hheld
    obtain rfl := Option.some.inj hheld
    cases (callers_moveCaller_self ..).symm.trans hq
  | other hpc hann => exact hs
  | known hpc hfree hlookup => exact hs
  | @discover p delta handle udata ann rdData now a hpc hhandle hann hfree hlookup hmalloc
      hclock =>
    have hnew := (Ppants.lookup_eq_none_iff hs.sound).mp hlookup
    refine ⟨hs.sound.insert hmalloc hnew hclock.ne, fun q d b hq => ?_⟩
    refine (hidle hfree (gone_of_moveCaller (fun _ _ h => ?_) hq)).elim
    split_ifs at h
  | @create p delta a handle pp wr hpc hmem hsame hwr hfresh =>
    exact ⟨hs.sound, fun q d b hq =>
      hs.holder q d b (gone_of_moveCaller (fun _ _ h => by cases h) hq)⟩
  | @finish p delta hpc =>
    exact ⟨hs.sound, fun q d a hq =>
      hs.holder q d a (gone_of_moveCaller (fun _ _ h => by cases h) hq)⟩
  | matched hfree => exact ⟨hs.sound.endpointMatched _ _, fun q d a hq => (hidle hfree hq).elim⟩
  | deadlines hfree =>
    exact ⟨(Ppants.expires_expire hs.sound _).sound, fun q d a hq => (hidle hfree hq).elim⟩
  | pong hpub hread => exact ⟨hs.sound, hs.holder⟩

theorem Reachable.kept (h : Reachable cfg s) : Kept s :=
  h.invariant kept_new fun _ _ _ hs hstep => hs.step hstep

end Kept

/-! ### Two peers -/

/-- A process with handle 1 that does not listen to itself. -/
def twoPeers : Setting where
  dpHandle := 1
  ignorelocalNone := false
  key handle := Vector.replicate 16 handle.toUInt8
  owner pubhandle := if pubhandle = 70 then 5 else 6

def peer : Announcement := ⟨true, 42, "host".toList⟩

theorem announcement_peer : announcement "DDSPerf:1:42:host".toList = some peer := by
  decide +kernel

theorem clock_zero : (0 : ℤ) + secs 5 < never := by decide

/-- Two overlapping listener calls, each with a new participant. -/
theorem reachable_two_peers : ∃ s : State Bool ℕ, Reachable twoPeers s ∧
    (∀ p, s.callers p = .idle) ∧ s.admin.counted twoPeers.toLocal = 2 ∧
    s.pongwr = [⟨0, 5, 7⟩, ⟨0, 6, 8⟩] := by
  refine ⟨_, ⟨[.caller false, .discovered false 5 peer true, .caller true,
    .discovered true 6 peer true, .caller false, .caller true, .caller true, .caller false],
    .cons (.begin rfl) <|
    .cons (.discover (a := 0) rfl (by decide) announcement_peer rfl rfl rfl clock_zero) <|
    .cons (.begin rfl) <|
    .cons (.discover (a := 1) rfl (by decide) announcement_peer rfl rfl rfl clock_zero) <|
    .cons (.create rfl rfl rfl (show (7 : Int32) ≠ 0 by decide) rfl) <|
    .cons (.create rfl rfl rfl (show (8 : Int32) ≠ 0 by decide) rfl) <|
    .cons (.finish rfl) <| .cons (.finish rfl) <| .nil _⟩, ?_, rfl, rfl⟩
  rintro (_ | _) <;> rfl

/-- While one call is about to create a pong writer for a new participant, another one may free the
record that the first one goes back to. -/
theorem reachable_freed : ∃ (s : State Bool ℕ) (delta : UInt32) (a : ℕ), Reachable twoPeers s ∧
    s.callers false = .creating delta a 5 ∧ s.admin.mem a = none :=
  ⟨_, _, 0, ⟨[.caller false, .discovered false 5 peer true, .caller true, .gone true 5,
    .caller true],
    .cons (.begin rfl) <|
    .cons (.discover (a := 0) rfl (by decide) announcement_peer rfl rfl rfl clock_zero) <|
    .cons (.begin rfl) <| .cons (.drop rfl rfl rfl) <| .single (.remove rfl rfl)⟩, rfl, rfl⟩

end DdsBenchmark.Perf.Discovery
