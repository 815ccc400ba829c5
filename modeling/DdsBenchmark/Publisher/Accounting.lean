import DdsBenchmark.Cputime.Matching
import DdsBenchmark.Publisher.Loop
import DdsBenchmark.Netload.Throughput
import DdsBenchmark.Stream.Sequencing

/-! What the publisher says it sent against what a subscriber counts. The loop numbers its
messages from `1` on, so a channel that only loses messages leaves the subscriber's books
balanced against the numbers. A write that fails takes a number as well: the books agree with
the writes that succeeded exactly when no write fails before the end. -/

namespace DdsBenchmark.Publisher

open Cputime Transport Visits Netload ThroughputCalculator Sequencing

/-- The sequence numbers of the messages, in the order they are written. -/
def PublisherRun.seqs (run : PublisherRun) : List UInt64 := run.messages.map (·.data.seq)

/-- The sequence numbers of the messages whose write returned `RET_OK`. -/
def PublisherRun.okSeqs (run : PublisherRun) : List UInt64 :=
  (run.messages.filter (·.ret = retOk)).map (·.data.seq)

/-- The passes number their messages in a row. -/
theorem numbers_visits (pub : Setup) (s : LoopState) (passes : List Pass)
    (h : s.seq.toNat + passes.length < 2 ^ 64) :
    ((visits pub.next s passes).map fun v => (pub.message v.1 v.2).data.seq.toNat) =
      List.range' (s.seq.toNat + 1) passes.length := by
  induction passes generalizing s with
  | nil => rfl
  | cons pass passes ih =>
    rw [List.length_cons] at h
    have hseq : (s.seq + 1).toNat = s.seq.toNat + 1 := by
      rw [UInt64.toNat_add, UInt64.toNat_one, Nat.mod_eq_of_lt (by omega)]
    have hnext : (pub.next s pass).seq.toNat = s.seq.toNat + 1 := hseq
    rw [visits_cons, List.map_cons, ih (pub.next s pass) (by omega), hnext, List.length_cons,
      List.range'_succ]
    exact congrArg (· :: _) hseq

/-- A pass turns the answer of the DDS library into a return code. -/
theorem ret_message (opts : Options) (env : Environment) (s : LoopState) (pass : Pass) :
    decide (((looping opts env).message s pass).ret = retOk) = !pass.ddsThrows := by
  rw [Setup.message, write_looping]
  cases pass.ddsThrows <;> rfl

section Run
variable {opts : Options} {env : Environment} {run : PublisherRun}

/-- The passes that a run goes through. -/
def Environment.executed (opts : Options) (env : Environment) : List Pass :=
  Publisher.executed (looping opts env) (initial env) env.passes

theorem length_messages_run (hrun : runPublisher opts env = .ran run) :
    run.messages.length = (env.executed opts).length := by
  obtain ⟨-, rfl⟩ := (runPublisher_eq_ran_iff _ _ _).mp hrun
  exact length_messages _ _

/-- The messages of a run are numbered from `1` on. -/
theorem numbers_seqs (hrun : runPublisher opts env = .ran run)
    (hN : run.messages.length < 2 ^ 64) :
    numbers run.seqs = List.range' 1 run.messages.length := by
  have hlen := length_messages_run hrun
  obtain ⟨-, rfl⟩ := (runPublisher_eq_ran_iff _ _ _).mp hrun
  have hnum := numbers_visits (looping opts env) (initial env) (env.executed opts) (by
    change 0 + _ < _
    omega)
  rw [hlen, PublisherRun.seqs, numbers, List.map_map, messages_eq, List.map_map]
  exact hnum

/-- The writes of a run fail where the DDS library throws. -/
theorem rets_messages (hrun : runPublisher opts env = .ran run) :
    (run.messages.map fun message => decide (message.ret = retOk)) =
      (env.executed opts).map fun pass => !pass.ddsThrows := by
  obtain ⟨-, rfl⟩ := (runPublisher_eq_ran_iff _ _ _).mp hrun
  rw [messages_eq, List.map_map]
  exact map_visits_of_input _ (ret_message opts env) _ _

/-- The number printed is the number of messages. -/
theorem sent_toNat (hrun : runPublisher opts env = .ran run)
    (hN : run.messages.length < 2 ^ 64) {n : UInt64} (hn : run.sent = some n) :
    n.toNat = run.messages.length := by
  have hlen := length_messages_run hrun
  obtain ⟨-, rfl⟩ := (runPublisher_eq_ran_iff _ _ _).mp hrun
  rw [hlen] at hN ⊢
  rw [sent_eq hn]
  change (0 + UInt64.ofNat (env.executed opts).length).toNat = _
  rw [UInt64.zero_add, UInt64.toNat_ofNat_of_lt' hN]

end Run

theorem mem_numbers_iff {seqs : List UInt64} {seq : UInt64} :
    seq.toNat ∈ numbers seqs ↔ seq ∈ seqs :=
  List.mem_map_of_injective fun _ _ he => UInt64.toNat_inj.mp he

/-- The messages below the last arrival that did not arrive, counted by their numbers. -/
theorem length_filter_not_arrived (seqs arrived : List UInt64) (last : UInt64) :
    (seqs.filter fun seq => seq < last ∧ seq ∉ arrived).length =
      ((numbers seqs).filter fun k => k < last.toNat ∧ k ∉ numbers arrived).length := by
  rw [numbers, List.filter_map, List.length_map]
  congr 1
  refine List.filter_congr fun seq _ => ?_
  simp only [Function.comp_apply, mem_numbers_iff, UInt64.lt_iff_toNat_lt]

/-! ### A channel that loses messages -/

/-- On a channel that only loses messages the subscriber's books balance after every arrival:
everything up to the last arrival has arrived or is lost. -/
theorem delivered_accounting (opts : Options) (env : Environment) (run : PublisherRun)
    (payloadSize : UInt64) (hrun : runPublisher opts env = .ran run)
    (hN : run.messages.length < 2 ^ 64 - 1) (delivered : List UInt64)
    (hd : delivered.Sublist run.seqs) :
    numbers run.seqs = List.range' 1 run.messages.length ∧
      (∀ n, run.sent = some n → n.toNat = run.messages.length) ∧
      ∀ arrived last, arrived ++ [last] <+: delivered →
        let stats := ((new payloadSize).feed (arrived ++ [last])).compute
        stats.totalMsgs.toNat = (arrived ++ [last]).length ∧
        stats.lostMsgs.toNat =
          (run.seqs.filter fun seq => seq < last ∧ seq ∉ arrived ++ [last]).length ∧
        stats.totalMsgs.toNat + stats.lostMsgs.toNat = last.toNat ∧
        last.toNat ≤ run.messages.length ∧
        (UInt64.ofNat run.messages.length ∈ arrived ++ [last] →
          stats.totalMsgs.toNat + stats.lostMsgs.toNat = run.messages.length) := by
  have hnum := numbers_seqs hrun (by omega)
  refine ⟨hnum, fun n hn => sent_toNat hrun (by omega) hn, fun arrived last hp => ?_⟩
  have hsub : (numbers arrived ++ [last.toNat]).Sublist
      (List.range' 1 run.messages.length) := by
    rw [← hnum]
    simpa using (hp.sublist.trans hd).map UInt64.toNat
  have hin := (inOrder_range' 1 _).sublist hsub
  have hnumbers : numbers (arrived ++ [last]) = numbers arrived ++ [last.toNat] := List.map_append
  have hlast : last.toNat ≤ run.messages.length := by
    have := List.mem_range'_1.mp (hsub.subset (by simp : last.toNat ∈ _))
    omega
  have hbooks : (arrived ++ [last]).length + Gaps.gapSum 1 (numbers (arrived ++ [last])) =
      last.toNat := by
    have hlast_eq := hin.last_eq
    rw [← hnumbers, List.length_map] at hlast_eq
    omega
  have hfits : (arrived ++ [last]).length < 2 ^ 64 := by omega
  have hgaps : Gaps.gapSum 1 (numbers (arrived ++ [last])) < 2 ^ 64 := by omega
  have htotal := totalMsgs_feed payloadSize hfits
  have hlost := lostMsgs_feed payloadSize hgaps
  refine ⟨htotal, ?_, ?_, hlast, fun hmem => ?_⟩
  · rw [hlost, length_filter_not_arrived, hnum, hnumbers, length_filter_eq_card_missing hsub,
      hin.gapSum_eq]
  · rw [htotal, hlost, hbooks]
  · have hN' : (UInt64.ofNat run.messages.length).toNat = run.messages.length :=
      UInt64.toNat_ofNat_of_lt' (show run.messages.length < 2 ^ 64 by omega)
    have hhigh := Gaps.lt_high (e := 1) (mem_numbers_iff.mpr hmem)
    rw [hnumbers, hin.high_append_singleton, hN'] at hhigh
    rw [htotal, hlost, hbooks]
    omega

/-- A pass that takes no time of its own. -/
def promptPass (ddsThrows : Bool) : Pass where
  running := true
  wakeNs := 0
  systemMs := 1700000000000
  ddsThrows := ddsThrows
  writeNs := 0
  proc := readingsAt 5 ["11"] "100 50"
  snapshotNs := 0
  oversleepNs := 0
  checkNs := 0

/-- The publisher is told to stop after the given passes. -/
def promptEnvironment (ddsThrows : List Bool) : Environment where
  ddsThrows := fun _ => false
  snap := emptySnapshot
  start := 0
  passes := ddsThrows.map promptPass ++ [{ promptPass false with running := false }]

theorem runPublisher_prompt (opts : Options) (ddsThrows : List Bool) :
    runPublisher opts (promptEnvironment ddsThrows) =
      .ran (publisherLoop (looping opts (promptEnvironment ddsThrows))
        (initial (promptEnvironment ddsThrows)) (promptEnvironment ddsThrows).passes) :=
  (runPublisher_eq_ran_iff _ _ _).mpr ⟨fun _ => rfl, rfl⟩

/-- Of three messages the second is lost: two arrive, and the books come to three. -/
theorem delivered_accounting_one_three :
    ((new 256).feed ([1] ++ [3])).compute.totalMsgs.toNat +
      ((new 256).feed ([1] ++ [3])).compute.lostMsgs.toNat = (3 : UInt64).toNat :=
  ((delivered_accounting {} (promptEnvironment [false, false, false]) _ 256
    (runPublisher_prompt _ _) (by decide) [1, 3] (by decide)).2.2 [1] 3 (by decide)).2.2.1

/-! ### Writes that fail -/

/-- The messages written without an error are numbered in a row from `1` on. -/
def PublisherRun.InRow (run : PublisherRun) : Prop :=
  numbers run.okSeqs = List.range' 1 run.okSeqs.length

/-- The number printed counts the writes that returned `RET_OK`, these are numbered in a row,
and a subscriber who receives all of them counts as many and no loss. -/
structure Accounted (run : PublisherRun) (sent : UInt64) : Prop where
  printed : sent.toNat = run.okSeqs.length
  inRow : run.InRow
  lost : ∀ payloadSize, ((new payloadSize).feed run.okSeqs).compute.lostMsgs = 0
  total : ∀ payloadSize, ((new payloadSize).feed run.okSeqs).compute.totalMsgs = sent

section Failing
variable {opts : Options} {env : Environment} {run : PublisherRun}

theorem numbers_okSeqs (hrun : runPublisher opts env = .ran run)
    (hN : run.messages.length < 2 ^ 64) :
    numbers run.okSeqs = picked 1 ((env.executed opts).map fun pass => !pass.ddsThrows) := by
  have hnum := numbers_seqs hrun hN
  rw [PublisherRun.seqs, numbers, List.map_map] at hnum
  rw [PublisherRun.okSeqs, numbers, List.map_map, ← rets_messages hrun]
  exact map_filter_eq_picked _ _ hnum

theorem length_okSeqs (hrun : runPublisher opts env = .ran run)
    (hN : run.messages.length < 2 ^ 64) :
    run.okSeqs.length = ((env.executed opts).map fun pass => !pass.ddsThrows).count true := by
  rw [← length_picked 1, ← numbers_okSeqs hrun hN, List.length_map]

/-- The successful writes are numbered in a row exactly when none follows a failed one. -/
theorem inRow_iff (hrun : runPublisher opts env = .ran run)
    (hN : run.messages.length < 2 ^ 64) :
    run.InRow ↔ (env.executed opts).Pairwise fun pass pass' =>
      pass.ddsThrows = true → pass'.ddsThrows = true := by
  rw [PublisherRun.InRow, numbers_okSeqs hrun hN, length_okSeqs hrun hN, picked_eq_range'_iff,
    List.pairwise_map]
  refine ⟨fun h => h.imp fun {a b} hab => ?_, fun h => h.imp fun {a b} hab => ?_⟩
  · cases ha : a.ddsThrows <;> cases hb : b.ddsThrows <;> simp_all
  · cases ha : a.ddsThrows <;> cases hb : b.ddsThrows <;> simp_all

/-- All messages are written without an error exactly when the DDS library never throws. -/
theorem length_okSeqs_eq_iff (hrun : runPublisher opts env = .ran run)
    (hN : run.messages.length < 2 ^ 64) :
    run.okSeqs.length = run.messages.length ↔
      ∀ pass ∈ env.executed opts, pass.ddsThrows = false := by
  rw [length_okSeqs hrun hN, length_messages_run hrun,
    ← List.length_map (f := fun pass : Pass => !pass.ddsThrows), List.count_eq_length]
  simp

/-- A subscriber who receives numbers in a row counts them and no loss. -/
theorem PublisherRun.InRow.stats (h : run.InRow) (hlt : run.okSeqs.length < 2 ^ 64)
    (payloadSize : UInt64) :
    ((new payloadSize).feed run.okSeqs).compute.lostMsgs.toNat = 0 ∧
      ((new payloadSize).feed run.okSeqs).compute.totalMsgs.toNat = run.okSeqs.length := by
  have hgap : Gaps.gapSum 1 (numbers run.okSeqs) = 0 := by
    rw [h, gapSum_range']
  refine ⟨?_, totalMsgs_feed payloadSize hlt⟩
  rw [lostMsgs_feed payloadSize (by omega), hgap]

end Failing

/-- The publisher's account of a finished run holds exactly when no write of it fails; its
numbering holds exactly when no write succeeds after one that failed. -/
theorem accounted_iff (opts : Options) (env : Environment) (run : PublisherRun)
    (hrun : runPublisher opts env = .ran run) (hN : run.messages.length < 2 ^ 64) :
    (∀ sent, run.sent = some sent →
      (Accounted run sent ↔ ∀ pass ∈ env.executed opts, pass.ddsThrows = false)) ∧
      (run.InRow ↔ (env.executed opts).Pairwise fun pass pass' =>
        pass.ddsThrows = true → pass'.ddsThrows = true) := by
  refine ⟨fun sent hsent => ?_, inRow_iff hrun hN⟩
  have hprinted := sent_toNat hrun hN hsent
  rw [← length_okSeqs_eq_iff hrun hN]
  constructor
  · intro h
    rw [← h.printed, hprinted]
  · intro h
    have hrow : run.InRow := by
      have hall := (length_okSeqs_eq_iff hrun hN).mp h
      refine (inRow_iff hrun hN).mpr ?_
      refine List.pairwise_of_forall_mem_list fun a ha b _ ht => ?_
      rw [hall a ha] at ht
      cases ht
    refine ⟨by rw [hprinted, h], hrow, fun payloadSize => ?_, fun payloadSize => ?_⟩
    · exact UInt64.toNat_inj.mp (hrow.stats (by omega) payloadSize).1
    · refine UInt64.toNat_inj.mp ?_
      rw [(hrow.stats (by omega) payloadSize).2, hprinted, h]

/-- Three writes in a row that the DDS library takes. -/
theorem accounted_three :
    Accounted (publisherLoop (looping {} (promptEnvironment [false, false, false]))
      (initial (promptEnvironment [false, false, false]))
      (promptEnvironment [false, false, false]).passes) 3 :=
  ((accounted_iff {} (promptEnvironment [false, false, false]) _ (runPublisher_prompt _ _)
    (by decide)).1 3 rfl).mpr (by decide)

/-- A write that fails is counted as sent all the same. -/
theorem not_accounted :
    ¬ ∀ (opts : Options) (env : Environment) (run : PublisherRun) (sent : UInt64),
      runPublisher opts env = .ran run → run.messages.length < 2 ^ 64 → run.sent = some sent →
      Accounted run sent := by
  intro h
  have ha := h {} (promptEnvironment [false, true, false]) _ 3 (runPublisher_prompt _ _)
    (by decide) rfl
  exact absurd ha.printed (by decide)

end DdsBenchmark.Publisher
