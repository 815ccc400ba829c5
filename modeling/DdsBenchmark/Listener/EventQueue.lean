import DdsBenchmark.Concurrency.Runs
import DdsBenchmark.Memory.Chain

/-! The asynchronous listener of the reference tool. Any number of threads enqueue events under
a mutex, one thread takes them off and calls their listeners outside it, and one call stops the
queue and joins that thread. The events lie in the heap in a singly linked list; `malloc` may
return any free address, one that was freed before included. The statements a party runs
between two operations on shared data are one step, and the steps of the parties interleave in
any order. -/

namespace DdsBenchmark.Listener

open Memory

variable {P ι Fn Status Arg : Type}

/-- `enum async_listener_kind`. -/
inductive Kind where
  | dataAvailable
  | publicationMatched
  | subscriptionMatched
  deriving DecidableEq

/-- The union `u` of an event, with its active member. -/
inductive Payload (Fn Status : Type) where
  | da (fn : Fn)
  | pm (fn : Fn) (st : Status)
  | sm (fn : Fn) (st : Status)
  deriving DecidableEq

/-- `struct async_listener_event` without the link. -/
structure Event (Fn Status Arg : Type) where
  kind : Kind
  handle : Int32
  fnArg : Arg
  u : Payload Fn Status
  deriving DecidableEq

/-- A call of a listener with its arguments. -/
inductive ListenerCall (Fn Status Arg : Type) where
  | dataAvailable (fn : Fn) (rd : Int32) (arg : Arg)
  | publicationMatched (fn : Fn) (wr : Int32) (status : Status) (arg : Arg)
  | subscriptionMatched (fn : Fn) (rd : Int32) (status : Status) (arg : Arg)
  deriving DecidableEq

/-- The event that the function for this kind of listener hands to `async_listener_enqueue`. -/
def ListenerCall.event : ListenerCall Fn Status Arg → Event Fn Status Arg
  | .dataAvailable fn rd arg => ⟨.dataAvailable, rd, arg, .da fn⟩
  | .publicationMatched fn wr status arg => ⟨.publicationMatched, wr, arg, .pm fn status⟩
  | .subscriptionMatched fn rd status arg => ⟨.subscriptionMatched, rd, arg, .sm fn status⟩

/-- The switch of the thread; nothing when it would read a member that is not the active one. -/
def Event.dispatch (ev : Event Fn Status Arg) : Option (ListenerCall Fn Status Arg) :=
  match ev.kind, ev.u with
  | .dataAvailable, .da fn => some (.dataAvailable fn ev.handle ev.fnArg)
  | .publicationMatched, .pm fn st => some (.publicationMatched fn ev.handle st ev.fnArg)
  | .subscriptionMatched, .sm fn st => some (.subscriptionMatched fn ev.handle st ev.fnArg)
  | _, _ => none

/-- The thread calls the listener that was asked for, with the arguments it was asked for. -/
@[simp] theorem dispatch_event (r : ListenerCall Fn Status Arg) : r.event.dispatch = some r := by
  cases r <;> rfl

/-- Who can hold the mutex. -/
inductive Party (P : Type) where
  | thread
  | caller (p : P)
  | stopper
  deriving DecidableEq

/-- Where `async_listener_thread` stands. It has yet to lock the mutex at `start`, `woken` and
`freed`, and it holds it at `test`, `loaded`, `taken` and `leaving`. -/
inductive ThreadAt (ι : Type) where
  | start
  | test
  | waiting
  | woken
  | loaded (ev : ι)
  | taken (ev : ι)
  | calling (ev : ι)
  | called (ev : ι)
  | freed
  | leaving
  | returned
  deriving DecidableEq

/-- Where a caller of `async_listener_enqueue` stands. It holds the mutex from `locked` on. -/
inductive CallAt (ι Fn Status Arg : Type) where
  | idle
  | created (ev : ι) (r : ListenerCall Fn Status Arg)
  | locked (ev : ι) (r : ListenerCall Fn Status Arg)
  | chained (ev : ι)
  | linked
  | signalled
  deriving DecidableEq

/-- Where the call of `async_listener_stop` stands. It holds the mutex from `locked` to
`signalled`. -/
inductive StopAt where
  | idle
  | locked
  | flagged
  | signalled
  | joining
  | joined
  | finished
  deriving DecidableEq

/-- The shared data, where every party stands, and, for the statements below, the listener calls
asked for in the order of the list and the calls made. -/
structure State (P ι Fn Status Arg : Type) where
  heap : Heap ι (Event Fn Status Arg)
  holder : Option (Party P)
  stop : Bool
  oldest : Option ι
  latest : Option ι
  thread : ThreadAt ι
  callers : P → CallAt ι Fn Status Arg
  stopper : StopAt
  requested : List (ListenerCall Fn Status Arg)
  made : List (ListenerCall Fn Status Arg)

/-- The thread has been created on the queue of `async_listener_new`. -/
def State.new : State P ι Fn Status Arg where
  heap := fun _ => none
  holder := none
  stop := false
  oldest := none
  latest := none
  thread := .start
  callers := fun _ => .idle
  stopper := .idle
  requested := []
  made := []

/-- `ddsrt_cond_signal`: nobody but the thread waits on the condition. -/
def ThreadAt.signal : ThreadAt ι → ThreadAt ι
  | .waiting => .woken
  | pc => pc

/-- The thread is at a `ddsrt_mutex_lock`, or inside `ddsrt_cond_wait` with the signal behind
it. -/
def ThreadAt.WantsLock : ThreadAt ι → Prop
  | .start | .woken | .freed => True
  | _ => False

variable [DecidableEq P] [DecidableEq ι]

/-- A caller goes on to another place. -/
def State.moveCaller (s : State P ι Fn Status Arg) (p : P) (pc : CallAt ι Fn Status Arg) :
    State P ι Fn Status Arg :=
  { s with callers := Function.update s.callers p pc }

/-- Writing a cell, or freeing it. -/
def State.store (s : State P ι Fn Status Arg) (a : ι)
    (c : Option (Cell ι (Event Fn Status Arg))) : State P ι Fn Status Arg :=
  { s with heap := Function.update s.heap a c }

/-- Who moves; the condition may also wake its waiter without a signal. -/
inductive Move (P : Type) where
  | thread
  | spurious
  | caller (p : P)
  | stopper
  deriving DecidableEq

/-- The steps, party by party. -/
inductive Step : State P ι Fn Status Arg → Move P → State P ι Fn Status Arg → Prop
  | threadLock {s} (hpc : s.thread.WantsLock) (hfree : s.holder = none) :
    Step s .thread { s with holder := some .thread, thread := .test }
  | threadWait {s} (hpc : s.thread = .test) (hstop : s.stop = false) (hempty : s.oldest = none) :
    Step s .thread { s with holder := none, thread := .waiting }
  | threadLoad {s} {ev : ι} (hpc : s.thread = .test) (hold : s.oldest = some ev) :
    Step s .thread { s with thread := .loaded ev }
  | threadTake {s} {ev : ι} {c} (hpc : s.thread = .loaded ev) (hcell : s.heap ev = some c) :
    Step s .thread { s with oldest := c.next, thread := .taken ev }
  | threadUnlock {s} {ev : ι} (hpc : s.thread = .taken ev) :
    Step s .thread { s with holder := none, thread := .calling ev }
  | threadCall {s} {ev : ι} {c r} (hpc : s.thread = .calling ev) (hcell : s.heap ev = some c)
      (hcall : c.value.dispatch = some r) :
    Step s .thread { s with made := s.made ++ [r], thread := .called ev }
  | threadFree {s} {ev : ι} {c} (hpc : s.thread = .called ev) (hcell : s.heap ev = some c) :
    Step s .thread { s.store ev none with thread := .freed }
  | threadLeave {s} (hpc : s.thread = .test) (hstop : s.stop = true) (hempty : s.oldest = none) :
    Step s .thread { s with thread := .leaving }
  | threadReturn {s} (hpc : s.thread = .leaving) :
    Step s .thread { s with holder := none, thread := .returned }
  | spurious {s} (hpc : s.thread = .waiting) : Step s .spurious { s with thread := .woken }
  -- `malloc` and `*ev = ev0`
  | callCreate {s} {p : P} {ev : ι} (r : ListenerCall Fn Status Arg) (hpc : s.callers p = .idle)
      (hfree : s.heap ev = none) :
    Step s (.caller p) ((s.store ev (some ⟨r.event, none⟩)).moveCaller p (.created ev r))
  | callLock {s} {p : P} {ev : ι} {r} (hpc : s.callers p = .created ev r)
      (hfree : s.holder = none) :
    Step s (.caller p) { s.moveCaller p (.locked ev r) with holder := some (.caller p) }
  -- `ev->next = NULL` and `al->oldest = ev`
  | callFirst {s} {p : P} {ev : ι} {r c} (hpc : s.callers p = .locked ev r)
      (hstop : s.stop = false) (hcell : s.heap ev = some c) (hempty : s.oldest = none) :
    Step s (.caller p) { (s.store ev (some { c with next := none })).moveCaller p (.chained ev) with
      oldest := some ev, requested := s.requested ++ [r] }
  -- `ev->next = NULL` and `al->latest->next = ev`
  | callBehind {s} {p : P} {ev last first : ι} {r c d} (hpc : s.callers p = .locked ev r)
      (hstop : s.stop = false) (hcell : s.heap ev = some c) (hold : s.oldest = some first)
      (hlatest : s.latest = some last)
      (hlast : (s.store ev (some { c with next := none })).heap last = some d) :
    Step s (.caller p)
      { ((s.store ev (some { c with next := none })).store last
          (some { d with next := some ev })).moveCaller p (.chained ev) with
        requested := s.requested ++ [r] }
  | callLatest {s} {p : P} {ev : ι} (hpc : s.callers p = .chained ev) :
    Step s (.caller p) { s.moveCaller p .linked with latest := some ev }
  | callSignal {s} {p : P} (hpc : s.callers p = .linked) :
    Step s (.caller p) { s.moveCaller p .signalled with thread := s.thread.signal }
  | callUnlock {s} {p : P} (hpc : s.callers p = .signalled) :
    Step s (.caller p) { s.moveCaller p .idle with holder := none }
  | stopLock {s} (hpc : s.stopper = .idle) (hfree : s.holder = none) :
    Step s .stopper { s with holder := some .stopper, stopper := .locked }
  | stopFlag {s} (hpc : s.stopper = .locked) :
    Step s .stopper { s with stop := true, stopper := .flagged }
  | stopSignal {s} (hpc : s.stopper = .flagged) :
    Step s .stopper { s with thread := s.thread.signal, stopper := .signalled }
  | stopUnlock {s} (hpc : s.stopper = .signalled) :
    Step s .stopper { s with holder := none, stopper := .joining }
  | stopJoin {s} (hpc : s.stopper = .joining) (hret : s.thread = .returned) :
    Step s .stopper { s with stopper := .joined }
  | stopAssert {s} (hpc : s.stopper = .joined) (hempty : s.oldest = none) :
    Step s .stopper { s with stopper := .finished }

/-- What can go wrong in the next statement of a party. -/
inductive Fault where
  | access
  | inactiveMember
  | assertNotStopped
  | assertEmpty
  deriving DecidableEq

/-- The next statement of some party goes wrong: it reads or frees an address that is not
allocated, follows a null pointer, reads an inactive member, or its assertion does not hold. -/
inductive Faults : State P ι Fn Status Arg → Fault → Prop
  | threadTake {s} {ev : ι} (hpc : s.thread = .loaded ev) (hcell : s.heap ev = none) :
    Faults s .access
  | threadCall {s} {ev : ι} (hpc : s.thread = .calling ev) (hcell : s.heap ev = none) :
    Faults s .access
  | threadSwitch {s} {ev : ι} {c} (hpc : s.thread = .calling ev) (hcell : s.heap ev = some c)
      (hcall : c.value.dispatch = none) : Faults s .inactiveMember
  | threadFree {s} {ev : ι} (hpc : s.thread = .called ev) (hcell : s.heap ev = none) :
    Faults s .access
  | callAssert {s} {p : P} {ev : ι} {r} (hpc : s.callers p = .locked ev r)
      (hstop : s.stop = true) : Faults s .assertNotStopped
  | callWrite {s} {p : P} {ev : ι} {r} (hpc : s.callers p = .locked ev r)
      (hcell : s.heap ev = none) : Faults s .access
  | callNull {s} {p : P} {ev first : ι} {r} (hpc : s.callers p = .locked ev r)
      (hold : s.oldest = some first) (hlatest : s.latest = none) : Faults s .access
  | callDangling {s} {p : P} {ev first last : ι} {r} (hpc : s.callers p = .locked ev r)
      (hold : s.oldest = some first) (hlatest : s.latest = some last)
      (hlast : s.heap last = none) : Faults s .access
  | stopAssert {s} {first : ι} (hpc : s.stopper = .joined) (hold : s.oldest = some first) :
    Faults s .assertEmpty

/-- The states a run from the new queue reaches. -/
def Reachable (s : State P ι Fn Status Arg) : Prop := ∃ ks, Concurrency.Run Step State.new ks s

/-- One induction for every invariant of the queue. -/
theorem Reachable.invariant {I : State P ι Fn Status Arg → Prop} (hnew : I State.new)
    (hstep : ∀ s k t, I s → Step s k t → I t) {s : State P ι Fn Status Arg}
    (h : Reachable s) : I s := by
  obtain ⟨ks, hrun⟩ := h
  exact hrun.invariant hstep hnew

theorem Reachable.run {s t : State P ι Fn Status Arg} {ks : List (Move P)} (h : Reachable s)
    (hrun : Concurrency.Run Step s ks t) : Reachable t := by
  obtain ⟨ls, h⟩ := h
  exact ⟨ls ++ ks, h.append hrun⟩

end DdsBenchmark.Listener
