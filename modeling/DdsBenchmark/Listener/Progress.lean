import DdsBenchmark.Listener.Delivery

/-! Progress. When nobody in the middle of a function can move, every listener call that was asked
for has been made: no signal was lost and nobody waits for the mutex. Once the queue is stopped
the thread returns after a number of its own steps that the events still pending bound. -/

namespace DdsBenchmark.Listener

open Memory Concurrency

variable {P ι Fn Status Arg : Type} [DecidableEq P] [DecidableEq ι]
  {s t : State P ι Fn Status Arg}

/-- A move that need not come: a wake-up without a signal, a new call of a function. -/
def Optional (s : State P ι Fn Status Arg) : Move P → Prop
  | .thread => False
  | .spurious => True
  | .caller p => s.callers p = .idle
  | .stopper => s.stopper = .idle

/-- Somebody in the middle of a function can move. -/
def Moves (s : State P ι Fn Status Arg) : Prop := ∃ k t, Step s k t ∧ ¬ Optional s k

theorem moves_thread (h : Step s .thread t) : Moves s := ⟨_, t, h, id⟩

theorem moves_caller {p : P} (h : Step s (.caller p) t) {pc : CallAt ι Fn Status Arg}
    (hpc : s.callers p = pc) (hidle : pc ≠ .idle) : Moves s :=
  ⟨_, t, h, fun ho => hidle (hpc.symm.trans ho)⟩

theorem moves_stopper (h : Step s .stopper t) {pc : StopAt} (hpc : s.stopper = pc)
    (hidle : pc ≠ .idle) : Moves s :=
  ⟨_, t, h, fun ho => hidle (hpc.symm.trans ho)⟩

/-- Whoever stands inside the critical section can go on, unless its statement goes wrong. -/
theorem moves_of_inside (hf : ∀ f, ¬ Faults s f) {who : Party P} (hin : s.Inside who) :
    Moves s := by
  cases who with
  | thread =>
    change s.thread.Inside at hin
    cases hpc : s.thread with
    | test =>
      cases hold : s.oldest with
      | some ev => exact moves_thread (.threadLoad hpc hold)
      | none =>
        cases hstop : s.stop with
        | false => exact moves_thread (.threadWait hpc hstop hold)
        | true => exact moves_thread (.threadLeave hpc hstop hold)
    | loaded ev =>
      cases hcell : s.heap ev with
      | none => exact absurd (.threadTake hpc hcell) (hf _)
      | some c => exact moves_thread (.threadTake hpc hcell)
    | taken ev => exact moves_thread (.threadUnlock hpc)
    | leaving => exact moves_thread (.threadReturn hpc)
    | _ => simp [hpc, ThreadAt.Inside] at hin
  | caller p =>
    change (s.callers p).Inside at hin
    cases hpc : s.callers p with
    | locked ev r =>
      have hstop : s.stop = false := by
        by_contra hflag
        exact hf _ (.callAssert hpc (by simpa using hflag))
      obtain ⟨c, hcell⟩ : ∃ c, s.heap ev = some c :=
        Option.ne_none_iff_exists'.mp fun hnone => hf _ (.callWrite hpc hnone)
      cases hold : s.oldest with
      | none => exact moves_caller (.callFirst hpc hstop hcell hold) hpc (by simp)
      | some first =>
        obtain ⟨last, hlatest⟩ : ∃ last, s.latest = some last :=
          Option.ne_none_iff_exists'.mp fun hnone => hf _ (.callNull hpc hold hnone)
        obtain ⟨d, hlast⟩ : ∃ d,
            (s.store ev (some { c with next := none })).heap last = some d := by
          by_cases hev : last = ev
          · subst hev
            exact ⟨_, Function.update_self ..⟩
          · obtain ⟨d, hd⟩ := Option.ne_none_iff_exists'.mp fun hnone =>
              hf _ (.callDangling hpc hold hlatest hnone)
            exact ⟨d, (Function.update_of_ne hev ..).trans hd⟩
        exact moves_caller (.callBehind hpc hstop hcell hold hlatest hlast) hpc (by simp)
    | chained ev => exact moves_caller (.callLatest hpc) hpc (by simp)
    | linked => exact moves_caller (.callSignal hpc) hpc (by simp)
    | signalled => exact moves_caller (.callUnlock hpc) hpc (by simp)
    | _ => simp [hpc, CallAt.Inside] at hin
  | stopper =>
    change s.stopper.Inside at hin
    cases hpc : s.stopper with
    | locked => exact moves_stopper (.stopFlag hpc) hpc (by simp)
    | flagged => exact moves_stopper (.stopSignal hpc) hpc (by simp)
    | signalled => exact moves_stopper (.stopUnlock hpc) hpc (by simp)
    | _ => simp [hpc, StopAt.Inside] at hin

/-- No deadlock and no lost wake-up: when all moves left are new calls and wake-ups without a
signal, and no statement goes wrong, then every call has returned, every listener call asked for
has been made, all memory is free, and the thread waits on a queue that runs or has returned from
one that is stopped. -/
theorem settled_of_not_moves (h : Reachable s) (hf : ∀ f, ¬ Faults s f) (hstuck : ¬ Moves s) :
    s.made = s.requested ∧ (∀ p, s.callers p = .idle) ∧ (∀ a, s.heap a = none) ∧
      (s.thread = .waiting ∧ s.stopper = .idle ∨
        s.thread = .returned ∧ s.stopper = .finished) := by
  obtain ⟨hx, ⟨q, hand, owner, ho⟩, hstop, hatt⟩ := h.sound
  have hout : ∀ who, ¬ s.Inside who := fun who hin => hstuck (moves_of_inside hf hin)
  have hfree : s.holder = none := by
    cases hholder : s.holder with
    | none => rfl
    | some who => exact absurd ((hx who).mp hholder) (hout who)
  have hidle : ∀ p, s.callers p = .idle := by
    intro p
    have hp := hout (.caller p)
    change ¬ (s.callers p).Inside at hp
    cases hpc : s.callers p with
    | idle => rfl
    | created ev r => exact absurd (moves_caller (.callLock hpc hfree) hpc (by simp)) hstuck
    | _ => simp [hpc, CallAt.Inside] at hp
  -- the thread has either left or sleeps, and it does not sleep over something to do
  have hthread : s.thread = .waiting ∧ s.stopper = .idle ∨
      s.thread = .returned ∧ s.stopper = .finished := by
    have hin := hout .thread
    change ¬ s.thread.Inside at hin
    have hstopper := hout .stopper
    change ¬ s.stopper.Inside at hstopper
    cases hpc : s.thread with
    | start | woken | freed =>
      exact absurd (moves_thread (.threadLock (by rw [hpc]; trivial) hfree)) hstuck
    | test | loaded ev | taken ev | leaving => simp [hpc, ThreadAt.Inside] at hin
    | calling ev =>
      obtain ⟨r, n, -, hcell⟩ := ho.full ev (by rw [hpc]; rfl)
      exact absurd (moves_thread (.threadCall hpc hcell (dispatch_event r))) hstuck
    | called ev =>
      obtain ⟨c, hcell⟩ : ∃ c, s.heap ev = some c :=
        Option.ne_none_iff_exists'.mp fun hnone => hf _ (.threadFree hpc hnone)
      exact absurd (moves_thread (.threadFree hpc hcell)) hstuck
    | waiting =>
      have hflag : s.stop = false := by
        rcases hatt hpc with ⟨-, hflag⟩ | ⟨p, hp⟩ | hflagged
        · exact hflag
        · rw [hidle p] at hp
          cases hp
        · rw [hflagged] at hstopper
          exact absurd trivial hstopper
      refine .inl ⟨rfl, ?_⟩
      by_contra hne
      have hset := hstop.flag.mpr ⟨hne, fun hl => hstopper (by rw [hl]; trivial)⟩
      simp [hflag] at hset
    | returned =>
      refine .inr ⟨rfl, ?_⟩
      obtain ⟨hflag, hempty⟩ := hstop.done (.inr hpc)
      have hne := hstop.flag.mp hflag
      cases hs : s.stopper with
      | joining => exact absurd (moves_stopper (.stopJoin hs hpc) hs (by simp)) hstuck
      | joined => exact absurd (moves_stopper (.stopAssert hs hempty) hs (by simp)) hstuck
      | finished => rfl
      | _ => simp_all [StopAt.Inside]
  have hempty : s.oldest = none := by
    rcases hthread with ⟨hpc, -⟩ | ⟨hpc, -⟩
    · rcases hatt hpc with ⟨hempty, -⟩ | ⟨p, hp⟩ | hflagged
      · exact hempty
      · rw [hidle p] at hp
        cases hp
      · exact absurd (show s.stopper.Inside by rw [hflagged]; trivial) (hout .stopper)
    · exact (hstop.done (.inr hpc)).2
  have hhold : s.thread.hold = .nothing := by
    rcases hthread with ⟨hpc, -⟩ | ⟨hpc, -⟩ <;> rw [hpc] <;> rfl
  have hq := ho.eq_nil_of_empty hempty
  have hhand := ho.empty (by simp [hhold])
  refine ⟨by simpa [hq, hhand] using ho.history, hidle, fun a => ?_, hthread⟩
  rw [← ho.free]
  cases howner : owner a with
  | none => rfl
  | some o =>
    cases o with
    | queue => simpa [hq] using (ho.queue a).mp howner
    | thread => simpa [hhold] using (ho.thread a).mp howner
    | caller p => simpa [hidle p, CallAt.share] using (ho.caller p a).mp howner

theorem not_moves_of_quiet (hpc : s.thread = .waiting)
    (hidle : ∀ p, s.callers p = .idle) (hstopper : s.stopper = .idle) : ¬ Moves s := by
  rintro ⟨k, t, hstep, hno⟩
  cases hstep <;> simp_all [Optional, ThreadAt.WantsLock]

omit [DecidableEq P] [DecidableEq ι] in
theorem not_faults_of_quiet (hpc : s.thread = .waiting) (hidle : ∀ p, s.callers p = .idle)
    (hstopper : s.stopper = .idle) (f : Fault) : ¬ Faults s f := by
  intro hf
  cases hf <;> simp_all

/-- One event, handled by the thread, which then sleeps. -/
theorem settled_one_event : ∃ s : State Bool ℕ ℕ Unit Unit,
    s.requested = [.dataAvailable 7 3 ()] ∧
      (s.made = s.requested ∧ (∀ p, s.callers p = .idle) ∧ (∀ a, s.heap a = none) ∧
        (s.thread = .waiting ∧ s.stopper = .idle ∨
          s.thread = .returned ∧ s.stopper = .finished)) := by
  obtain ⟨t, hrun, hfree, hstop, hold, hcell, hpc, hidle, hothers, hstopper, hrequested, -⟩ :=
    enqueue_alone (s := (State.new : State Bool ℕ ℕ Unit Unit)) (p := true)
      (.dataAvailable 7 3 ()) rfl (show State.new.heap 40 = none from rfl) rfl rfl rfl
  obtain ⟨u, hrun', hpc', hfree', hempty', -, hrequested', hstop', hcallers', hstopper', -⟩ :=
    handle_alone (by rw [hpc]; trivial) hfree hold hcell
  have hreach : Reachable u := ⟨_, hrun.append hrun'⟩
  have hstep : Run Step u [.thread, .thread] { u with holder := none, thread := .waiting } :=
    .cons (.threadLock (by rw [hpc']; trivial) hfree') <|
      .single (.threadWait rfl (hstop'.trans hstop) hempty')
  have hcallers : ∀ p, u.callers p = .idle := by
    intro p
    rw [hcallers']
    by_cases hp : p = true
    · exact hp ▸ hidle
    · exact hothers p hp
  have hidle' : u.stopper = .idle := hstopper'.trans hstopper
  refine ⟨{ u with holder := none, thread := .waiting }, hrequested'.trans hrequested,
    settled_of_not_moves (hreach.run hstep) ?_ ?_⟩
  · exact not_faults_of_quiet rfl hcallers hidle'
  · exact not_moves_of_quiet rfl hcallers hidle'

/-- How many steps of its own the thread has before it, once the flag is set, with `m` listener
calls to make: six for each event, one of them to lock the mutex again, and two to leave. -/
def ThreadAt.ahead (m : ℕ) : ThreadAt ι → ℕ
  | .start | .waiting | .woken | .freed => 6 * m + 3
  | .test => 6 * m + 2
  | .loaded _ => 6 * m + 1
  | .taken _ => 6 * m
  | .calling _ => 6 * m - 1
  | .called _ => 6 * m + 4
  | .leaving => 1
  | .returned => 0

/-- The listener calls that are asked for and not made. -/
def State.pending (s : State P ι Fn Status Arg) : ℕ := s.requested.length - s.made.length

omit [DecidableEq ι] in
@[simp] theorem ahead_signal (m : ℕ) (pc : ThreadAt ι) : pc.signal.ahead m = pc.ahead m := by
  cases pc <;> rfl

omit [DecidableEq ι] in
theorem ahead_le (m : ℕ) (pc : ThreadAt ι) : pc.ahead m ≤ 6 * m + 4 := by
  cases pc <;> simp only [ThreadAt.ahead] <;> omega

omit [DecidableEq P] [DecidableEq ι] in
/-- An event in hand is one of the pending ones. -/
theorem Sound.pending_pos (h : Sound s) {ev : ι} (hpc : s.thread.hold = .full ev) :
    1 ≤ s.pending := by
  obtain ⟨-, ⟨q, hand, owner, ho⟩, -, -⟩ := h
  obtain ⟨r, n, rfl, -⟩ := ho.full ev hpc
  have hlength := congrArg List.length ho.history
  simp only [List.length_append, List.length_singleton] at hlength
  unfold State.pending
  omega

/-- Behind the flag no event enters, and each step of the thread brings it closer to its end. -/
theorem ahead_step {k : Move P} (h : Sound s ∧ s.stop = true) (hstep : Step s k t) :
    t.thread.ahead t.pending + (if k == .thread then 1 else 0) ≤ s.thread.ahead s.pending ∧
      t.requested = s.requested ∧ t.stop = true := by
  obtain ⟨hs, hflag⟩ := h
  cases hstep with
  | threadLock hpc =>
    refine ⟨?_, rfl, hflag⟩
    show ThreadAt.ahead s.pending .test + 1 ≤ s.thread.ahead s.pending
    revert hpc
    cases s.thread <;> simp [ThreadAt.WantsLock, ThreadAt.ahead]
  | threadUnlock hpc =>
    have hpos := hs.pending_pos (by rw [hpc]; rfl)
    refine ⟨?_, rfl, hflag⟩
    rw [hpc]
    show 6 * s.pending - 1 + 1 ≤ 6 * s.pending
    omega
  | threadCall hpc =>
    have hpos := hs.pending_pos (by rw [hpc]; rfl)
    refine ⟨?_, rfl, hflag⟩
    rw [hpc]
    simp only [State.pending, List.length_append, List.length_singleton, ThreadAt.ahead,
      beq_self_eq_true, if_true] at hpos ⊢
    omega
  | threadWait hpc hstop | callFirst hpc hstop | callBehind hpc hstop =>
    rw [hflag] at hstop
    cases hstop
  | threadLoad hpc | threadTake hpc | threadFree hpc | threadLeave hpc | threadReturn hpc
  | spurious hpc =>
    exact ⟨by simp [hpc, ThreadAt.ahead, State.pending, State.store], rfl, hflag⟩
  | callSignal hpc | stopSignal hpc =>
    exact ⟨Nat.le_of_eq (ahead_signal s.pending s.thread), rfl, hflag⟩
  | stopFlag hpc => exact ⟨Nat.le_refl _, rfl, rfl⟩
  | _ => exact ⟨Nat.le_refl _, rfl, hflag⟩

/-- Once the queue is stopped the thread takes six steps for each pending event and at most four
more, whatever the others do meanwhile, nothing new enters the list, and where nobody can move any
more and no statement goes wrong the thread has returned with all its listener calls made. -/
theorem returns_after_stop (h : Reachable s) (hflag : s.stop = true) {ks : List (Move P)}
    (hrun : Run Step s ks t) :
    ks.count .thread ≤ 6 * s.pending + 4 ∧ t.requested = s.requested ∧
      (¬ Moves t → (∀ f, ¬ Faults t f) → t.thread = .returned ∧ t.made = s.requested) := by
  have hkeep : ∀ (u : State P ι Fn Status Arg) k v,
      (Sound u ∧ u.stop = true) → Step u k v → Sound v ∧ v.stop = true :=
    fun u k v hu huv => ⟨sound_step hu.1 huv, (ahead_step hu huv).2.2⟩
  have hcount := hrun.countP_add_le (· == .thread) (fun u => u.thread.ahead u.pending) hkeep
    (fun u k v hu huv => (ahead_step hu huv).1) ⟨h.sound, hflag⟩
  have hbound := ahead_le s.pending s.thread
  have hrequested := hrun.invariant (I := fun u => (Sound u ∧ u.stop = true) ∧
      u.requested = s.requested)
    (fun u k v hu huv => ⟨hkeep u k v hu.1 huv, (ahead_step hu.1 huv).2.1.trans hu.2⟩)
    ⟨⟨h.sound, hflag⟩, rfl⟩
  refine ⟨by simp only [List.count] at *; omega, hrequested.2, fun hstuck hf => ?_⟩
  obtain ⟨hmade, -, -, hend⟩ := settled_of_not_moves (h.run hrun) hf hstuck
  rcases hend with ⟨-, hidle⟩ | ⟨hret, -⟩
  · exact absurd hidle (hrequested.1.1.stopping.flag.mp hrequested.1.2).1
  · exact ⟨hret, hmade.trans hrequested.2⟩

/-- The queue is stopped while two events are still in the list. -/
theorem returns_after_stop_two_events :
    ∃ (s t : State Bool ℕ ℕ Unit Unit) (ks : List (Move Bool)),
      s.pending = 2 ∧ t.thread = .returned ∧
        (ks.count .thread ≤ 6 * s.pending + 4 ∧ t.requested = s.requested ∧
          (¬ Moves t → (∀ f, ¬ Faults t f) → t.thread = .returned ∧ t.made = s.requested)) := by
  obtain ⟨s, t, ks, hreach, hflag, hrequested, hmade, hrun, hret, -⟩ := exists_run_returned
  exact ⟨s, t, ks, by simp [State.pending, hrequested, hmade], hret,
    returns_after_stop hreach hflag hrun⟩

end DdsBenchmark.Listener
