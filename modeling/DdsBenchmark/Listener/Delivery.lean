import DdsBenchmark.Listener.Ownership

/-! What the queue guarantees. In any interleaving no party touches memory that is not its own,
every listener call that was asked for is made once and in order, no wake-up is lost, and a
stopped queue is empty. -/

namespace DdsBenchmark.Listener

open Memory Concurrency

variable {P ι Fn Status Arg : Type}

/-- How the flag, the thread and the stopper hang together. -/
structure Stopping (s : State P ι Fn Status Arg) : Prop where
  flag : s.stop = true ↔ s.stopper ≠ .idle ∧ s.stopper ≠ .locked
  done : s.thread = .leaving ∨ s.thread = .returned → s.stop = true ∧ s.oldest = none
  joined : s.stopper = .joined ∨ s.stopper = .finished → s.thread = .returned

/-- The caller has hung its event behind the list and has yet to signal. -/
def CallAt.Signals : CallAt ι Fn Status Arg → Prop
  | .chained _ | .linked => True
  | _ => False

/-- While the thread waits there is nothing to do for it, or a signal is on its way. -/
def Attended (s : State P ι Fn Status Arg) : Prop :=
  s.thread = .waiting → (s.oldest = none ∧ s.stop = false) ∨
    (∃ p, (s.callers p).Signals) ∨ s.stopper = .flagged

@[simp] theorem signal_ne_waiting (pc : ThreadAt ι) : pc.signal ≠ .waiting := by
  cases pc <;> simp [ThreadAt.signal]

@[simp] theorem signal_eq_leaving (pc : ThreadAt ι) : pc.signal = .leaving ↔ pc = .leaving := by
  cases pc <;> simp [ThreadAt.signal]

@[simp] theorem signal_eq_returned (pc : ThreadAt ι) :
    pc.signal = .returned ↔ pc = .returned := by
  cases pc <;> simp [ThreadAt.signal]

/-- The event is in the list and its caller has yet to signal. -/
theorem attended_chained {s : State P ι Fn Status Arg} {p : P} {ev : ι}
    (hpc : s.callers p = .chained ev) : Attended s := by
  intro _
  exact .inr (.inl ⟨p, by rw [hpc]; trivial⟩)

variable [DecidableEq P] [DecidableEq ι]

theorem stopping_step {s t : State P ι Fn Status Arg} {k : Move P} (h : Stopping s)
    (hstep : Step s k t) : Stopping t := by
  obtain ⟨hflag, hdone, hjoined⟩ := h
  cases hstep with
  | threadLock hpc =>
    have hne : s.thread ≠ .returned := by
      intro hret
      rw [hret] at hpc
      exact hpc
    exact ⟨hflag, by simp, fun hj => absurd (hjoined hj) hne⟩
  | callFirst hpc hstop | callBehind hpc hstop =>
    -- behind the flag the assertion keeps the list as it is
    refine ⟨hflag, fun hd => ?_, hjoined⟩
    have hs := (hdone hd).1
    rw [hstop] at hs
    cases hs
  | _ => constructor <;> simp_all [State.store, State.moveCaller]

omit [DecidableEq ι] in
theorem Attended.caller {s t : State P ι Fn Status Arg} {p : P} {pc : CallAt ι Fn Status Arg}
    (h : Attended s) (hcallers : t.callers = Function.update s.callers p pc)
    (hsignals : (s.callers p).Signals → pc.Signals) (hthread : t.thread = s.thread)
    (hlist : t.oldest = s.oldest ∧ t.stop = s.stop) (hstopper : t.stopper = s.stopper) :
    Attended t := by
  intro hw
  rw [hlist.1, hlist.2, hstopper, hcallers]
  apply (h (hthread ▸ hw)).imp_right
  apply Or.imp_left
  rintro ⟨q, hq⟩
  refine ⟨q, ?_⟩
  by_cases hqp : q = p
  · subst hqp
    simpa using hsignals hq
  · simpa [hqp] using hq

theorem attended_step {s t : State P ι Fn Status Arg} {k : Move P} (h : Attended s)
    (hstep : Step s k t) : Attended t := by
  cases hstep with
  | threadWait hpc hflag hempty => exact fun _ => .inl ⟨hempty, hflag⟩
  | callCreate r hpc =>
    exact h.caller rfl (by rw [hpc]; exact id) rfl ⟨rfl, rfl⟩ rfl
  | callLock hpc hfree =>
    exact h.caller rfl (by rw [hpc]; exact False.elim) rfl ⟨rfl, rfl⟩ rfl
  | @callFirst p ev r c hpc => exact attended_chained (p := p) (Function.update_self ..)
  | @callBehind p ev last first r c d hpc =>
    exact attended_chained (p := p) (Function.update_self ..)
  | callLatest hpc => exact h.caller rfl (fun _ => trivial) rfl ⟨rfl, rfl⟩ rfl
  | callUnlock hpc => exact h.caller rfl (by rw [hpc]; exact id) rfl ⟨rfl, rfl⟩ rfl
  | stopFlag hpc => exact fun _ => .inr (.inr rfl)
  | _ => intro hw; simp_all [Attended]

omit [DecidableEq P] [DecidableEq ι] in
theorem owned_new : Owned (State.new : State P ι Fn Status Arg) [] [] (fun _ => none) := by
  constructor <;> simp [State.new, ThreadAt.hold, CallAt.share]

/-- Every step keeps the ownership, given that the sections exclude each other. -/
theorem owned_step {s t : State P ι Fn Status Arg} {k : Move P} (hx : Exclusive s)
    (h : ∃ q hand owner, Owned s q hand owner) (hstep : Step s k t) :
    ∃ q hand owner, Owned t q hand owner := by
  obtain ⟨q, hand, owner, h⟩ := h
  cases hstep with
  | threadLoad hpc hold => exact ⟨q, hand, owner, h.load hpc hold⟩
  | threadTake hpc hcell =>
    obtain ⟨r, rest, -, ht⟩ := h.take hpc hcell (hx.not_chained_of_loaded hpc)
    exact ⟨rest, [r], _, ht⟩
  | threadCall hpc hcell hcall => exact ⟨q, [], owner, h.call hpc hcell hcall⟩
  | threadFree hpc => exact ⟨q, hand, _, h.release hpc⟩
  | callCreate r hpc hfree => exact ⟨q, hand, _, h.create r hpc hfree⟩
  | callFirst hpc hstop hcell hempty => exact ⟨_, hand, _, h.linkFirst hx hpc hcell hempty⟩
  | callBehind hpc hstop hcell hold hlatest hlast =>
    exact ⟨_, hand, _, h.linkBehind hx hpc hcell hold hlatest hlast⟩
  | callLatest hpc => exact ⟨q, hand, owner, h.setLatest hpc⟩
  | threadLock hpc =>
    refine ⟨q, hand, owner, h.congr rfl rfl rfl rfl rfl ?_ fun _ => rfl⟩
    generalize s.thread = pc at hpc
    cases pc <;> first | rfl | cases hpc
  | threadWait hpc | threadUnlock hpc | threadLeave hpc | threadReturn hpc | spurious hpc =>
    exact ⟨q, hand, owner, h.congr rfl rfl rfl rfl rfl (by rw [hpc]; rfl) fun _ => rfl⟩
  | callLock hpc | callUnlock hpc =>
    exact ⟨q, hand, owner, h.congr rfl rfl rfl rfl rfl rfl
      (share_update_of_eq (by rw [hpc]; rfl))⟩
  | callSignal hpc =>
    exact ⟨q, hand, owner, h.congr rfl rfl rfl rfl rfl (hold_signal _)
      (share_update_of_eq (by rw [hpc]; rfl))⟩
  | stopSignal => exact ⟨q, hand, owner, h.congr rfl rfl rfl rfl rfl (hold_signal _) fun _ => rfl⟩
  | stopLock | stopFlag | stopUnlock | stopJoin | stopAssert =>
    exact ⟨q, hand, owner, h.congr rfl rfl rfl rfl rfl rfl fun _ => rfl⟩

/-- The invariant of the queue. -/
structure Sound (s : State P ι Fn Status Arg) : Prop where
  exclusive : Exclusive s
  owned : ∃ q hand owner, Owned s q hand owner
  stopping : Stopping s
  attended : Attended s

omit [DecidableEq P] [DecidableEq ι] in
theorem sound_new : Sound (State.new : State P ι Fn Status Arg) where
  exclusive := exclusive_new
  owned := ⟨[], [], _, owned_new⟩
  stopping := by constructor <;> simp [State.new]
  attended := by simp [Attended, State.new]

theorem sound_step {s t : State P ι Fn Status Arg} {k : Move P} (h : Sound s)
    (hstep : Step s k t) : Sound t where
  exclusive := exclusive_step h.exclusive hstep
  owned := owned_step h.exclusive h.owned hstep
  stopping := stopping_step h.stopping hstep
  attended := attended_step h.attended hstep

theorem Reachable.sound {s : State P ι Fn Status Arg} (h : Reachable s) : Sound s :=
  h.invariant sound_new fun _ _ _ => sound_step

section Results

variable {s t : State P ι Fn Status Arg}

omit [DecidableEq P] [DecidableEq ι] in
/-- While the list is not empty and nobody is about to set `latest`, it shows a live event. -/
theorem Owned.exists_latest {q : List (ι × ListenerCall Fn Status Arg)}
    {hand : List (ListenerCall Fn Status Arg)} {owner : ι → Option (Owner P)}
    (h : Owned s q hand owner) {first : ι} (hold : s.oldest = some first)
    (hno : ∀ p ev, (s.callers p).share ≠ .chained ev) :
    ∃ last, s.latest = some last ∧ s.heap last ≠ none := by
  obtain ⟨r, n, rest, hq, -⟩ := h.fst_eq_of_oldest hold
  have hne : q ≠ [] := by simp [hq]
  refine ⟨(q.getLast hne).1, h.latest hno _ (List.getLast?_eq_some_getLast hne), ?_⟩
  intro hfree
  have howner := (h.free _).mpr hfree
  have hqueue := (h.queue (q.getLast hne).1).mpr
    (List.mem_map_of_mem (List.getLast_mem hne))
  rw [howner] at hqueue
  cases hqueue

/-- A call of `async_listener_enqueue` on an empty queue that nobody interrupts. -/
theorem enqueue_alone {p : P} {ev : ι} (r : ListenerCall Fn Status Arg)
    (hidle : s.callers p = .idle) (hcell : s.heap ev = none) (hfree : s.holder = none)
    (hstop : s.stop = false) (hempty : s.oldest = none) :
    ∃ t, Run Step s (List.replicate 6 (.caller p)) t ∧ t.holder = none ∧ t.stop = false ∧
      t.oldest = some ev ∧ t.heap ev = some ⟨r.event, none⟩ ∧ t.thread = s.thread.signal ∧
      t.callers p = .idle ∧ (∀ q, q ≠ p → t.callers q = s.callers q) ∧ t.stopper = s.stopper ∧
      t.requested = s.requested ++ [r] ∧ t.made = s.made ∧ t.latest = some ev ∧
      ∀ a, a ≠ ev → t.heap a = s.heap a := by
  have hpc : ∀ (u : State P ι Fn Status Arg) (pc : CallAt ι Fn Status Arg),
      (u.moveCaller p pc).callers p = pc := fun u pc => Function.update_self ..
  refine ⟨_, .cons (.callCreate r hidle hcell) <| .cons (.callLock (hpc _ _) hfree) <|
    .cons (.callFirst (hpc _ _) hstop (Function.update_self ..) hempty) <|
    .cons (.callLatest (hpc _ _)) <| .cons (.callSignal (hpc _ _)) <|
    .cons (.callUnlock (hpc _ _)) <| .nil _, rfl, hstop, rfl, Function.update_self .., rfl,
    hpc _ _, fun q hq => ?_, rfl, rfl, rfl, rfl, fun a ha => ?_⟩
  · simp [State.moveCaller, State.store, hq]
  · simp [State.moveCaller, State.store, ha]

/-- A call of `async_listener_enqueue` on a list that is not empty, and that nobody interrupts. -/
theorem enqueue_behind_alone {p : P} {ev last first : ι} {d : Cell ι (Event Fn Status Arg)}
    (r : ListenerCall Fn Status Arg) (hidle : s.callers p = .idle) (hcell : s.heap ev = none)
    (hfree : s.holder = none) (hstop : s.stop = false) (hold : s.oldest = some first)
    (hlatest : s.latest = some last) (hlast : s.heap last = some d) :
    ∃ t, Run Step s (List.replicate 6 (.caller p)) t ∧ t.holder = none ∧ t.stop = false ∧
      t.oldest = some first ∧ t.heap last = some { d with next := some ev } ∧
      t.heap ev = some ⟨r.event, none⟩ ∧ t.thread = s.thread.signal ∧ t.stopper = s.stopper ∧
      t.requested = s.requested ++ [r] ∧ t.made = s.made := by
  have hpc : ∀ (u : State P ι Fn Status Arg) (pc : CallAt ι Fn Status Arg),
      (u.moveCaller p pc).callers p = pc := fun u pc => Function.update_self ..
  have hne : last ≠ ev := by
    rintro rfl
    simp [hcell] at hlast
  refine ⟨_, .cons (.callCreate r hidle hcell) <| .cons (.callLock (hpc _ _) hfree) <|
    .cons (.callBehind (hpc _ _) hstop (Function.update_self ..) hold hlatest
      (show _ = some d by simpa [State.moveCaller, State.store, hne] using hlast)) <|
    .cons (.callLatest (hpc _ _)) <| .cons (.callSignal (hpc _ _)) <|
    .cons (.callUnlock (hpc _ _)) <| .nil _, rfl, hstop, hold, Function.update_self .., ?_, rfl,
    rfl, rfl, rfl⟩
  simp [State.moveCaller, State.store, hne.symm]

/-- One round of the thread that nobody interrupts, from the lock on. -/
theorem handle_alone {ev : ι} {r : ListenerCall Fn Status Arg} {n : Option ι}
    (hpc : s.thread.WantsLock) (hfree : s.holder = none) (hold : s.oldest = some ev)
    (hcell : s.heap ev = some ⟨r.event, n⟩) :
    ∃ t, Run Step s (List.replicate 6 .thread) t ∧ t.thread = .freed ∧ t.holder = none ∧
      t.oldest = n ∧ t.made = s.made ++ [r] ∧ t.requested = s.requested ∧ t.stop = s.stop ∧
      t.callers = s.callers ∧ t.stopper = s.stopper ∧ ∀ a, a ≠ ev → t.heap a = s.heap a := by
  exact ⟨_, .cons (.threadLock hpc hfree) <| .cons (.threadLoad rfl hold) <|
    .cons (.threadTake rfl hcell) <| .cons (.threadUnlock rfl) <|
    .cons (.threadCall rfl hcell (dispatch_event r)) <| .cons (.threadFree rfl hcell) <| .nil _,
    rfl, rfl, rfl, rfl, rfl, rfl, rfl, rfl, fun a ha => Function.update_of_ne ha ..⟩

omit [DecidableEq P] [DecidableEq ι] in
theorem wantsLock_signal {pc : ThreadAt ι} (h : pc.WantsLock) : pc.signal.WantsLock := by
  cases pc <;> first | exact h | cases h

/-- The call of `async_listener_stop` up to the join, when nobody interrupts it. -/
theorem stop_alone (hidle : s.stopper = .idle) (hfree : s.holder = none) :
    Run Step s (List.replicate 4 .stopper)
      { s with stop := true, stopper := .joining, thread := s.thread.signal, holder := none } :=
  .cons (.stopLock hidle hfree) <| .cons (.stopFlag rfl) <| .cons (.stopSignal rfl) <|
    .single (.stopUnlock rfl)

/-- The thread finds the flag set and the list empty. -/
theorem leave_alone (hpc : s.thread.WantsLock) (hfree : s.holder = none) (hflag : s.stop = true)
    (hempty : s.oldest = none) :
    Run Step s (List.replicate 3 .thread) { s with thread := .returned, holder := none } :=
  .cons (.threadLock hpc hfree) <| .cons (.threadLeave rfl hflag hempty) <|
    .single (.threadReturn rfl)

/-- Two callers enqueue one event each, the queue is stopped, and the thread handles both events
before it returns. -/
theorem exists_run_returned : ∃ (s t : State Bool ℕ ℕ Unit Unit) (ks : List (Move Bool)),
    Reachable s ∧ s.stop = true ∧
      s.requested = [.dataAvailable 7 3 (), .publicationMatched 8 4 () ()] ∧ s.made = [] ∧
      Run Step s ks t ∧ t.thread = .returned ∧ t.requested = s.requested := by
  obtain ⟨s, hrun, hfree, hstop, hold, hcell, hpc, -, hothers, hstopper, hrequested, hmade,
      hlatest, hframe⟩ :=
    enqueue_alone (s := (State.new : State Bool ℕ ℕ Unit Unit)) (p := true)
      (.dataAvailable 7 3 ()) rfl (show State.new.heap 40 = none from rfl) rfl rfl rfl
  obtain ⟨t, hrun', hfree, -, hold, hcell, hbehind, hpc', hstopper', hrequested', hmade'⟩ :=
    enqueue_behind_alone (s := s) (p := false) (.publicationMatched 8 4 () ())
      (hothers false (by decide)) (hframe 41 (by decide)) hfree hstop hold hlatest hcell
  have hwants : t.thread.WantsLock := by
    rw [hpc', hpc]
    exact wantsLock_signal (wantsLock_signal trivial)
  have hstopped := stop_alone (hstopper'.trans hstopper) hfree
  obtain ⟨u, hround, hpc, hfree, hold, -, hkept, hflag, -, -, hframe⟩ := handle_alone
    (s := { t with stop := true, stopper := .joining, thread := t.thread.signal, holder := none })
    (r := .dataAvailable 7 3 ()) (wantsLock_signal hwants) rfl hold hcell
  obtain ⟨v, hround', hpc', hfree, hempty, -, hkept', hflag', -⟩ := handle_alone
    (r := .publicationMatched 8 4 () ()) (by rw [hpc]; trivial) hfree hold
    ((hframe 41 (by decide)).trans hbehind)
  refine ⟨_, _, _, Reachable.run ⟨_, hrun.append hrun'⟩ hstopped, rfl, ?_, ?_,
    (hround.append hround').append
      (leave_alone (by rw [hpc']; trivial) hfree (hflag'.trans hflag) hempty), rfl,
    hkept'.trans hkept⟩
  · simp [hrequested', hrequested, State.new]
  · simp [hmade', hmade, State.new]

/-- Whatever the interleaving, and although freed addresses are given out again: no statement
touches memory that is not allocated, follows a null pointer or reads an inactive member, the
list is empty when the thread has been joined, and the assertion of `async_listener_enqueue`
fails for the callers only that enter after the stop. -/
theorem faults_iff (h : Reachable s) (f : Fault) :
    Faults s f ↔ f = .assertNotStopped ∧ s.stop = true ∧ ∃ p ev r, s.callers p = .locked ev r := by
  constructor
  · intro hf
    obtain ⟨hx, ⟨q, hand, owner, ho⟩, hstop, -⟩ := h.sound
    cases hf with
    | threadTake hpc hcell =>
      obtain ⟨r, n, rest, -, hev, -⟩ := ho.fst_eq_of_oldest (ho.loaded _ (by rw [hpc]; rfl))
      simp [hcell] at hev
    | threadCall hpc hcell =>
      obtain ⟨r, n, -, hev⟩ := ho.full _ (by rw [hpc]; rfl)
      simp [hcell] at hev
    | threadSwitch hpc hcell hcall =>
      obtain ⟨r, n, -, hev⟩ := ho.full _ (by rw [hpc]; rfl)
      rw [hcell] at hev
      cases hev
      simp at hcall
    | threadFree hpc hcell =>
      have howner := (ho.thread _).mpr (.inr (by rw [hpc]; rfl))
      rw [(ho.free _).mpr hcell] at howner
      cases howner
    | callAssert hpc hflag => exact ⟨rfl, hflag, _, _, _, hpc⟩
    | callWrite hpc hcell =>
      obtain ⟨n, hev⟩ := ho.own _ _ _ (by rw [hpc]; rfl)
      simp [hcell] at hev
    | callNull hpc hold hlatest =>
      obtain ⟨last, hlast, -⟩ := ho.exists_latest hold (hx.not_chained_of_locked hpc)
      simp [hlatest] at hlast
    | callDangling hpc hold hlatest hcell =>
      obtain ⟨last, hlast, hlive⟩ := ho.exists_latest hold (hx.not_chained_of_locked hpc)
      rw [hlatest] at hlast
      cases hlast
      exact absurd hcell hlive
    | stopAssert hpc hold =>
      have hempty := (hstop.done (.inr (hstop.joined (.inl hpc)))).2
      simp [hold] at hempty
  · rintro ⟨rfl, hflag, p, ev, r, hpc⟩
    exact .callAssert hpc hflag

/-- A caller that enters after the stop. -/
theorem faults_late_caller : ∃ s : State Bool ℕ ℕ Unit Unit,
    Faults s .assertNotStopped ∧ ¬ Faults s .access := by
  have hrun : Run Step (State.new : State Bool ℕ ℕ Unit Unit) _ _ :=
    .cons (@Step.callCreate _ _ _ _ _ _ _ _ true 40 (.dataAvailable 7 3 ()) rfl rfl) <|
      .cons (.stopLock rfl rfl) <| .cons (.stopFlag rfl) <| .cons (.stopSignal rfl) <|
      .cons (.stopUnlock rfl) <|
      .single (@Step.callLock _ _ _ _ _ _ _ _ true 40 (.dataAvailable 7 3 ()) rfl rfl)
  refine ⟨_, (faults_iff ⟨_, hrun⟩ _).mpr ⟨rfl, rfl, true, 40, _, rfl⟩, fun hf => ?_⟩
  cases ((faults_iff ⟨_, hrun⟩ _).mp hf).1

/-- The listener calls are made in the order in which the events entered the list, each at most
once; once the thread has returned all of them have been made, and the memory still allocated
belongs to callers that have not entered. -/
theorem made_in_order (h : Reachable s) :
    s.made <+: s.requested ∧ (s.thread = .returned →
      s.made = s.requested ∧ s.oldest = none ∧
        ∀ a, s.heap a ≠ none → ∃ p r, s.callers p = .created a r ∨ s.callers p = .locked a r) := by
  obtain ⟨hx, ⟨q, hand, owner, ho⟩, hstop, -⟩ := h.sound
  refine ⟨⟨hand ++ q.map Prod.snd, by simpa using ho.history⟩, fun hret => ?_⟩
  have hempty := (hstop.done (.inr hret)).2
  have hq := ho.eq_nil_of_empty hempty
  have hhand := ho.hand_eq_nil hret (by simp [ThreadAt.hold])
  refine ⟨by simpa [hq, hhand] using ho.history, hempty, fun a ha => ?_⟩
  cases howner : owner a with
  | none => exact absurd ((ho.free a).mp howner) ha
  | some o =>
    cases o with
    | queue => simpa [hq] using (ho.queue a).mp howner
    | thread => simpa [hret, ThreadAt.hold] using (ho.thread a).mp howner
    | caller p =>
      obtain ⟨r, hr⟩ := (ho.caller p a).mp howner
      refine ⟨p, r, ?_⟩
      cases hpc : s.callers p <;> simp_all [CallAt.share]

/-- Events of two callers in the list at once, of two kinds. -/
theorem made_in_order_two_callers : ∃ s : State Bool ℕ ℕ Unit Unit,
    s.thread = .returned ∧ s.oldest = none ∧
      s.requested = [.dataAvailable 7 3 (), .publicationMatched 8 4 () ()] ∧
      s.made = [.dataAvailable 7 3 (), .publicationMatched 8 4 () ()] ∧
      ∀ a, s.heap a ≠ none → ∃ p r, s.callers p = .created a r ∨ s.callers p = .locked a r := by
  obtain ⟨s, t, ks, hreach, -, hrequested, -, hrun, hret, hkept⟩ := exists_run_returned
  obtain ⟨hmade, hempty, hfree⟩ := (made_in_order (hreach.run hrun)).2 hret
  exact ⟨t, hret, hempty, hkept.trans hrequested, (hmade.trans hkept).trans hrequested, hfree⟩

end Results

end DdsBenchmark.Listener
