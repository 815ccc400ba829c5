import DdsBenchmark.Perf.Discovery
import Mathlib.Algebra.BigOperators.Group.Finset.Basic
import Mathlib.Algebra.BigOperators.Group.Finset.Piecewise
import Mathlib.Algebra.CharP.Basic
import Mathlib.Data.ZMod.Basic
import Mathlib.Tactic.LinearCombination
import Mathlib.Tactic.Ring

/-! How many pongs the performance tool expects. Listener calls that overlap each add what they
found only when they are over; the number they have yet to add and the number that is stored
together make up the participants in the tree, in the words of the counter. -/

namespace DdsBenchmark.Perf.Discovery

variable {P ι : Type} [DecidableEq P] [DecidableEq ι]

/-- A counter as an integer modulo its width. -/
def word (x : UInt32) : ZMod (2 ^ 32) := (x.toNat : ZMod (2 ^ 32))

theorem word_add (x y : UInt32) : word (x + y) = word x + word y := by
  rw [word, UInt32.toNat_add, ZMod.natCast_mod, Nat.cast_add, word, word]

theorem word_one : word 1 = 1 := Nat.cast_one

theorem word_zero : word 0 = 0 := Nat.cast_zero

theorem word_sub_one (x : UInt32) : word (x - 1) = word x - 1 := by
  have h := word_add (x - 1) 1
  rw [UInt32.sub_add_cancel, word_one] at h
  rw [h, add_sub_cancel_right]

/-- What a call has yet to add to the counter. At `gone` it has counted the participant out that
is still in the tree, and at `creating` it has not yet counted the new one in. -/
def pending (cfg : Setting) (admin : Ppants ι) : CallAt ι → ZMod (2 ^ 32)
  | .idle => 0
  | .taking delta => word delta
  | .gone delta a => word delta + if admin.countsAt cfg.toLocal a then 1 else 0
  | .creating delta _ _ => word delta + 1

/-- The counter and what is pending are the participants in the tree. -/
def Counted [Fintype P] (cfg : Setting) (s : State P ι) : Prop :=
  word s.nPongExpected + ∑ p, pending cfg s.admin (s.callers p) =
    (s.admin.counted cfg.toLocal : ZMod (2 ^ 32))

section Sum
variable [Fintype P]

omit [DecidableEq ι] in
/-- One call moves. -/
theorem sum_moveCaller (f : CallAt ι → ZMod (2 ^ 32)) (callers : P → CallAt ι) (p : P)
    (pc : CallAt ι) :
    (∑ q, f (Function.update callers p pc q)) = (∑ q, f (callers q)) - f (callers p) + f pc := by
  have hcomp : (fun q => f (Function.update callers p pc q)) =
      Function.update (fun q => f (callers q)) p (f pc) := by
    funext q
    exact Function.apply_update (fun _ => f) callers p pc q
  have hsplit := Finset.add_sum_erase Finset.univ (fun q => f (callers q)) (Finset.mem_univ p)
  rw [hcomp, Finset.sum_update_of_mem (Finset.mem_univ p), Finset.sdiff_singleton_eq_erase,
    ← hsplit]
  ring

omit [DecidableEq P] [DecidableEq ι] in
/-- Without the lock held, what is pending does not depend on the records. -/
theorem sum_pending_congr {cfg : Setting} {s : State P ι} (admin : Ppants ι)
    (h : ∀ p delta a, s.callers p ≠ .gone delta a) :
    (∑ q, pending cfg admin (s.callers q)) = ∑ q, pending cfg s.admin (s.callers q) := by
  refine Finset.sum_congr rfl fun q _ => ?_
  cases hq : s.callers q with
  | gone delta a => exact absurd hq (h q delta a)
  | _ => rfl

end Sum

section Counted
variable [Fintype P] {cfg : Setting} {s t : State P ι}

omit [DecidableEq P] [DecidableEq ι] [Fintype P] in
theorem Kept.not_gone (hs : Kept s) (hfree : s.disc = none) (p : P) (delta : UInt32) (a : ι) :
    s.callers p ≠ .gone delta a := by
  intro h
  have hholds := (hs.holder p delta a h).1
  rw [hfree] at hholds
  cases hholds

omit [DecidableEq P] [DecidableEq ι] in
theorem counted_new (cfg : Setting) : Counted cfg (State.new : State P ι) := by
  have hsum : ∑ p : P, pending cfg (Ppants.new : Ppants ι) (State.new.callers p) = 0 :=
    Finset.sum_eq_zero fun p _ => rfl
  show word 0 + _ = ((Ppants.counted cfg.toLocal (Ppants.new : Ppants ι) : ℕ) : ZMod (2 ^ 32))
  rw [word_zero, zero_add]
  exact hsum.trans Nat.cast_zero.symm

omit [DecidableEq ι] in
/-- One call moves, and the counter and the records change by as much. -/
theorem Counted.move (hs : Counted cfg s) (p : P) {pc : CallAt ι} (admin : Ppants ι)
    (expected : UInt32)
    (hsame : (∑ q, pending cfg admin ((s.moveCaller p pc).callers q)) =
      ∑ q, pending cfg s.admin ((s.moveCaller p pc).callers q))
    (hbalance : word expected + pending cfg s.admin pc + s.admin.counted cfg.toLocal =
      word s.nPongExpected + pending cfg s.admin (s.callers p) + admin.counted cfg.toLocal) :
    word expected + (∑ q, pending cfg admin ((s.moveCaller p pc).callers q)) =
      (admin.counted cfg.toLocal : ZMod (2 ^ 32)) := by
  have hmove : (∑ q, pending cfg s.admin ((s.moveCaller p pc).callers q)) =
      (∑ q, pending cfg s.admin (s.callers q)) - pending cfg s.admin (s.callers p) +
        pending cfg s.admin pc := sum_moveCaller (pending cfg s.admin) s.callers p pc
  rw [hsame, hmove]
  unfold Counted at hs
  linear_combination hs + hbalance

theorem Counted.step (hk : Kept s) (hs : Counted cfg s) {k : Move P} (h : Step cfg s k t) :
    Counted cfg t := by
  cases h with
  | @begin p hpc =>
    refine hs.move p s.admin s.nPongExpected rfl ?_
    rw [hpc, pending, pending, word_zero]
  | unknown hpc hfree hlookup => exact hs
  | @drop p delta a pp hpc hfree handle hlookup =>
    have hmem := ((Ppants.lookup_eq_some_iff hk.sound).mp hlookup).1
    refine hs.move p s.admin s.nPongExpected rfl ?_
    rw [hpc, pending, pending, Ppants.countsAt_of_mem hmem]
    split_ifs
    · rw [word_sub_one, sub_add_cancel]
    · rw [add_zero]
  | @remove p delta a pp hpc hmem =>
    have hdisc := (hk.holder p delta a hpc).1
    have hlone : ∀ q d b, (s.moveCaller p (.taking delta)).callers q ≠ .gone d b := by
      intro q d b hq
      have hq' := gone_of_moveCaller (fun _ _ h => by cases h) hq
      have hheld := (hk.holder q d b hq').1
      rw [hdisc] at hheld
      obtain rfl := Option.some.inj hheld
      cases (callers_moveCaller_self ..).symm.trans hq
    have hcount := Ppants.counted_remove cfg.toLocal hk.sound hmem
    refine hs.move p (s.admin.remove a pp) s.nPongExpected (sum_pending_congr _ hlone) ?_
    rw [hpc, pending, pending, Ppants.countsAt_of_mem hmem, hcount]
    push_cast
    ring
  | other hpc hann => exact hs
  | known hpc hfree hlookup => exact hs
  | @discover p delta handle udata ann rdData now a hpc hhandle hann hfree hlookup hmalloc
      hclock =>
    have hnone : ∀ q d b, (s.moveCaller p (if cfg.counts handle then .creating delta a handle
        else .taking delta)).callers q ≠ .gone d b := by
      intro q d b hq
      exact hk.not_gone hfree q d b (gone_of_moveCaller (fun _ _ h => by split_ifs at h) hq)
    have hcount := Ppants.counted_insert cfg.toLocal
      (newPpant cfg.toLocal handle (cfg.key handle) ann rdData now) hk.sound hmalloc
    refine hs.move p (s.admin.insert a _) s.nPongExpected (sum_pending_congr _ hnone) ?_
    rw [hpc, hcount, pending]
    show word s.nPongExpected + pending cfg s.admin (if cfg.counts handle then _ else _) + _ =
      word s.nPongExpected + word delta +
        ((_ + (if cfg.counts handle then 1 else 0) : ℕ) : ZMod (2 ^ 32))
    split_ifs
    · rw [pending]
      push_cast
      ring
    · rw [pending, Nat.add_zero]
  | @create p delta a handle pp wr hpc hmem hsame hwr hfresh =>
    refine hs.move p s.admin s.nPongExpected rfl ?_
    rw [hpc, pending, pending, word_add, word_one]
  | @finish p delta hpc =>
    refine hs.move p s.admin (s.nPongExpected + delta) rfl ?_
    rw [hpc, pending, pending, word_add, add_zero]
  | @matched mask handle hfree =>
    have hcount := Ppants.counted_congr cfg.toLocal
      (Ppants.ppants_endpointMatched s.admin mask handle)
      (Ppants.handle_endpointMatched hk.sound mask handle)
    unfold Counted at hs ⊢
    rw [hcount, ← hs, sum_pending_congr _ (hk.not_gone hfree)]
  | @deadlines now hfree =>
    have hexp := Ppants.expires_expire hk.sound now
    unfold Counted at hs ⊢
    rw [Ppants.counted_congr cfg.toLocal hexp.ppants hexp.handle, ← hs,
      sum_pending_congr _ (hk.not_gone hfree)]
  | pong hpub hread => exact hs

theorem Reachable.counted (h : Reachable cfg s) : Counted cfg s :=
  (h.invariant (I := fun s => Kept s ∧ Counted cfg s) ⟨kept_new, counted_new cfg⟩
    fun _ _ _ hs hstep => ⟨hs.1.step hstep, hs.2.step hs.1 hstep⟩).2

end Counted

end DdsBenchmark.Perf.Discovery
