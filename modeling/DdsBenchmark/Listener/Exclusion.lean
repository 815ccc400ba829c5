import DdsBenchmark.Listener.EventQueue

/-! Mutual exclusion. The holder of the mutex is the one party that stands inside a critical
section, in every state of every run. -/

namespace DdsBenchmark.Listener

variable {P ι Fn Status Arg : Type}

def ThreadAt.Inside : ThreadAt ι → Prop
  | .test | .loaded _ | .taken _ | .leaving => True
  | _ => False

def CallAt.Inside : CallAt ι Fn Status Arg → Prop
  | .idle | .created _ _ => False
  | _ => True

def StopAt.Inside : StopAt → Prop
  | .locked | .flagged | .signalled => True
  | _ => False

/-- The party is between its lock and its unlock. -/
def State.Inside (s : State P ι Fn Status Arg) : Party P → Prop
  | .thread => s.thread.Inside
  | .caller p => (s.callers p).Inside
  | .stopper => s.stopper.Inside

@[simp] theorem inside_signal (pc : ThreadAt ι) : pc.signal.Inside ↔ pc.Inside := by
  cases pc <;> simp [ThreadAt.signal, ThreadAt.Inside]

theorem ThreadAt.WantsLock.not_inside {pc : ThreadAt ι} (h : pc.WantsLock) : ¬ pc.Inside := by
  cases pc <;> simp_all [ThreadAt.WantsLock, ThreadAt.Inside]

/-- Exactly the holder is inside. -/
def Exclusive (s : State P ι Fn Status Arg) : Prop := ∀ who, s.holder = some who ↔ s.Inside who

theorem exclusive_new : Exclusive (State.new : State P ι Fn Status Arg) := by
  intro w
  cases w <;> simp [State.new, State.Inside, ThreadAt.Inside, CallAt.Inside, StopAt.Inside]

/-- What a move of one party makes of the holder, by whether it stood inside before the move and
whether it stands inside after it. -/
inductive Passes (who : Party P) : Option (Party P) → Option (Party P) → Prop → Prop → Prop
  | enter {before after : Prop} (hbefore : ¬ before) (hafter : after) :
    Passes who none (some who) before after
  | leave {holder : Option (Party P)} {before after : Prop} (hbefore : before)
    (hafter : ¬ after) : Passes who holder none before after
  | stay {holder : Option (Party P)} {before after : Prop} (hsame : after ↔ before) :
    Passes who holder holder before after

section

variable {s t : State P ι Fn Status Arg} {who : Party P}

theorem Exclusive.eq_of_inside (h : Exclusive s) {w w' : Party P} (hw : s.Inside w)
    (hw' : s.Inside w') : w = w' :=
  Option.some.inj (((h w).mpr hw).symm.trans ((h w').mpr hw'))

theorem Exclusive.passes (h : Exclusive s)
    (hpass : Passes who s.holder t.holder (s.Inside who) (t.Inside who))
    (hsame : ∀ w, w ≠ who → (t.Inside w ↔ s.Inside w)) : Exclusive t := by
  intro w
  have hwho := h who
  by_cases hw : w = who
  · subst hw
    generalize s.holder = before, t.holder = after at hpass hwho
    cases hpass with
    | enter hbefore hafter => simp [hafter]
    | leave hbefore hafter => simp [hafter]
    | stay hinside => rw [hwho, hinside]
  · have hother := h w
    rw [hsame w hw]
    generalize s.holder = before, t.holder = after at hpass hwho hother
    cases hpass with
    | enter hbefore hafter => simp [← hother, Ne.symm hw]
    | leave hbefore hafter => simp [← hother, hwho.mpr hbefore, Ne.symm hw]
    | stay hinside => exact hother

/-- The thread moves: callers and stopper stand where they stood. -/
theorem Exclusive.thread (h : Exclusive s)
    (hpass : Passes .thread s.holder t.holder s.thread.Inside t.thread.Inside)
    (hcallers : t.callers = s.callers) (hstopper : t.stopper = s.stopper) : Exclusive t := by
  apply h.passes hpass
  intro w hw
  cases w with
  | thread => exact absurd rfl hw
  | caller p => simp [State.Inside, hcallers]
  | stopper => simp [State.Inside, hstopper]

/-- The stopper moves, at most signalling the thread. -/
theorem Exclusive.stopper (h : Exclusive s)
    (hpass : Passes .stopper s.holder t.holder s.stopper.Inside t.stopper.Inside)
    (hcallers : t.callers = s.callers)
    (hthread : t.thread = s.thread ∨ t.thread = s.thread.signal) : Exclusive t := by
  apply h.passes hpass
  intro w hw
  cases w with
  | thread => rcases hthread with h | h <;> simp [State.Inside, h]
  | caller p => simp [State.Inside, hcallers]
  | stopper => exact absurd rfl hw

/-- A caller moves, at most signalling the thread. -/
theorem Exclusive.caller [DecidableEq P] {p : P} {pc : CallAt ι Fn Status Arg} (h : Exclusive s)
    (hpass : Passes (.caller p) s.holder t.holder (s.callers p).Inside pc.Inside)
    (hcallers : t.callers = Function.update s.callers p pc)
    (hthread : t.thread = s.thread ∨ t.thread = s.thread.signal)
    (hstopper : t.stopper = s.stopper) : Exclusive t := by
  have hp : t.Inside (.caller p) = pc.Inside := by simp [State.Inside, hcallers]
  apply h.passes (hp ▸ hpass)
  intro w hw
  cases w with
  | thread => rcases hthread with h | h <;> simp [State.Inside, h]
  | stopper => simp [State.Inside, hstopper]
  | caller q =>
    have hq : q ≠ p := by
      rintro rfl
      exact hw rfl
    simp [State.Inside, hcallers, hq]

end

variable [DecidableEq P] [DecidableEq ι]

theorem exclusive_step {s t : State P ι Fn Status Arg} {k : Move P} (h : Exclusive s)
    (hstep : Step s k t) : Exclusive t := by
  cases hstep with
  | threadLock hpc hfree =>
    exact h.thread (by rw [hfree]; exact .enter hpc.not_inside trivial) rfl rfl
  | threadWait hpc | threadUnlock hpc | threadReturn hpc =>
    exact h.thread (.leave (by rw [hpc]; trivial) id) rfl rfl
  | threadLoad hpc | threadTake hpc | threadLeave hpc | threadCall hpc | threadFree hpc
  | spurious hpc =>
    exact h.thread (.stay (by rw [hpc]; rfl)) rfl rfl
  | callCreate r hpc | callFirst hpc | callBehind hpc | callLatest hpc =>
    exact h.caller (.stay (by rw [hpc]; rfl)) rfl (.inl rfl) rfl
  | callLock hpc hfree =>
    exact h.caller (by rw [hpc, hfree]; exact .enter id trivial) rfl (.inl rfl) rfl
  | callSignal hpc => exact h.caller (.stay (by rw [hpc]; rfl)) rfl (.inr rfl) rfl
  | callUnlock hpc => exact h.caller (.leave (by rw [hpc]; trivial) id) rfl (.inl rfl) rfl
  | stopLock hpc hfree =>
    exact h.stopper (by rw [hpc, hfree]; exact .enter id trivial) rfl (.inl rfl)
  | stopFlag hpc | stopJoin hpc | stopAssert hpc =>
    exact h.stopper (.stay (by rw [hpc]; rfl)) rfl (.inl rfl)
  | stopSignal hpc => exact h.stopper (.stay (by rw [hpc]; rfl)) rfl (.inr rfl)
  | stopUnlock hpc => exact h.stopper (.leave (by rw [hpc]; trivial) id) rfl (.inl rfl)

end DdsBenchmark.Listener
