import DdsBenchmark.Cputime.Runs

/-! Runs in which reads fail. A thread whose stat file cannot be read is stored with times `0`,
and a status file that cannot be opened stores what the variables happened to hold. A failure
is observed in the same snapshot when the thread was stored before it, and one snapshot later
when the thread recovers; the figures stay sound exactly when neither happens. -/

namespace DdsBenchmark.Cputime

open Overwrite

/-- The cumulative times of every thread at each call, as the kernel keeps them. -/
structure KernelTimes where
  times : ℕ → UInt64 → ℚ × ℚ
  nonneg : ∀ k t mode, 0 ≤ CpuMode.time mode (times k t)
  monotone : ∀ t mode, Monotone fun k => CpuMode.time mode (times k t)

/-- A read that succeeds shows the kernel's times. -/
def KernelTimes.Agrees (kernel : KernelTimes) (calls : List Call) : Prop :=
  ∀ k c t, calls[k]? = some c → c.proc.statRead t = true → c.proc.times t = kernel.times k t

/-- The two switch counters after one more call: an unopened status file leaves them alone. -/
def statusStep (last : UInt64 × UInt64) (c : Call) : UInt64 × UInt64 :=
  match c.proc.status with
  | none => last
  | some _ =>
    ((readStatus c.proc.status c.proc.unassigned).vcsw,
      (readStatus c.proc.status c.proc.unassigned).ivcsw)

/-- The last counters that were read, `0` when there are none. -/
def lastStatus (calls : List Call) : UInt64 × UInt64 := calls.foldl statusStep (0, 0)

/-- No figure is negative, none exceeds the growth since the call before, and a status file
that cannot be opened changes nothing. -/
structure Sound (calls : List Call) (kernel : KernelTimes) : Prop where
  nonneg : ∀ (k i : ℕ) (m : BcliMonitor) (c : Call) (t : UInt64) (thr : BcliThreadStat)
    (mode : CpuMode), (monitorRun calls)[k]? = some (m, c) → c.proc.tids[i]? = some t →
    (c.result m).out.threads[i]? = some thr → 0 ≤ mode.sec thr
  bounded : ∀ (k i : ℕ) (m : BcliMonitor) (c : Call) (t : UInt64) (thr : BcliThreadStat)
    (mode : CpuMode), (monitorRun calls)[k + 1]? = some (m, c) → c.proc.tids[i]? = some t →
    (c.result m).out.threads[i]? = some thr →
    mode.sec thr * m.dt c.proc ≤
      mode.time (kernel.times (k + 1) t) - mode.time (kernel.times k t)
  status : ∀ (k : ℕ) (m : BcliMonitor) (c : Call), (monitorRun calls)[k]? = some (m, c) →
    c.proc.status = none →
    (c.result m).out.vcsw = 0 ∧ (c.result m).out.ivcsw = 0 ∧
      ((c.step m).prevVcsw, (c.step m).prevIvcsw) = lastStatus (calls.take k)

/-- An unopened status file finds the last counters in the variables it leaves unassigned, and
no thread with time on it, listed again no later than before, is read in one of two calls in a
row and missed in the other. -/
structure Harmless (calls : List Call) (kernel : KernelTimes) : Prop where
  status : ∀ (k : ℕ) (c : Call), calls[k]? = some c → c.proc.status = none →
    (c.proc.unassigned.vcsw, c.proc.unassigned.ivcsw) = lastStatus (calls.take k)
  stat : ∀ (k i j : ℕ) (c c' : Call) (t : UInt64) (mode : CpuMode), calls[k]? = some c →
    calls[k + 1]? = some c' → 0 < elapsed c.proc c'.proc → c'.proc.tids[i]? = some t →
    c.proc.tids[j]? = some t → i ≤ j → mode.time (kernel.times k t) ≠ 0 →
    c.proc.statRead t = c'.proc.statRead t

/-! ### The context switches -/

theorem statusStep_none {last : UInt64 × UInt64} {c : Call} (h : c.proc.status = none) :
    statusStep last c = last := by
  simp only [statusStep, h]

theorem statusStep_some {last : UInt64 × UInt64} {c : Call}
    (h : c.proc.status ≠ none) (m : BcliMonitor) :
    statusStep last c = ((c.step m).prevVcsw, (c.step m).prevIvcsw) := by
  obtain ⟨text, ht⟩ := Option.ne_none_iff_exists'.mp h
  simp only [statusStep, Call.step, Call.result, prevVcsw_snapshot, prevIvcsw_snapshot, ht]

theorem prev_step_none {c : Call} (h : c.proc.status = none) (m : BcliMonitor) :
    ((c.step m).prevVcsw, (c.step m).prevIvcsw) =
      (c.proc.unassigned.vcsw, c.proc.unassigned.ivcsw) := by
  simp only [Call.step, Call.result, prevVcsw_snapshot, prevIvcsw_snapshot, h, readStatus]

theorem lastStatus_take_succ {calls : List Call} {k : ℕ} {c : Call} (h : calls[k]? = some c) :
    lastStatus (calls.take (k + 1)) = statusStep (lastStatus (calls.take k)) c := by
  obtain ⟨hk, rfl⟩ := List.getElem?_eq_some_iff.mp h
  rw [List.take_succ_eq_append_getElem hk, lastStatus, List.foldl_append]
  rfl

/-- While unopened files find the last counters, the stored counters are the last ones read. -/
theorem prev_eq_lastStatus {calls : List Call}
    (h : ∀ (k : ℕ) (c : Call), calls[k]? = some c → c.proc.status = none →
      (c.proc.unassigned.vcsw, c.proc.unassigned.ivcsw) = lastStatus (calls.take k))
    {k : ℕ} {m : BcliMonitor} {c : Call} (hk : (monitorRun calls)[k]? = some (m, c)) :
    (m.prevVcsw, m.prevIvcsw) = lastStatus (calls.take k) := by
  cases k with
  | zero =>
    rw [monitorRun_zero hk]
    rfl
  | succ j =>
    obtain ⟨m', c', hk', rfl⟩ := monitorRun_succ hk
    have hc' := monitorRun_call hk'
    rw [lastStatus_take_succ hc']
    by_cases hs : c'.proc.status = none
    · rw [statusStep_none hs, prev_step_none hs, h j c' hc' hs]
    · rw [statusStep_some hs m']

/-- An unopened file that finds the stored counters reports no switches. -/
theorem switches_eq_zero {m : BcliMonitor} {c : Call} (hs : c.proc.status = none)
    (hu : (c.proc.unassigned.vcsw, c.proc.unassigned.ivcsw) = (m.prevVcsw, m.prevIvcsw)) :
    (c.result m).out.vcsw = 0 ∧ (c.result m).out.ivcsw = 0 := by
  obtain ⟨hv, hi⟩ := Prod.mk.inj hu
  simp only [Call.result, BcliMonitor.snapshot, hs, readStatus, hv, hi]
  simp

/-! ### The threads -/

section Threads
variable {calls : List Call} {kernel : KernelTimes}

/-- What the table keeps for a thread. -/
theorem KernelTimes.Agrees.sec_readThread (h : kernel.Agrees calls) {k : ℕ} {c : Call}
    (hk : calls[k]? = some c) (mode : CpuMode) (t : UInt64) :
    mode.sec (c.proc.readThread t) =
      if c.proc.statRead t then mode.time (kernel.times k t) else 0 := by
  rw [Cputime.sec_readThread]
  split_ifs with hr
  · rw [h k c t hk hr]
  · rfl

/-- A difference of two readings lies between `0` and the growth exactly when a counter other
than `0` was read twice or missed twice. -/
theorem difference_sound_iff {a b : ℚ} (ha : 0 ≤ a) (hab : a ≤ b) (r₁ r₂ : Bool) :
    (0 ≤ (if r₂ then b else 0) - (if r₁ then a else 0) ∧
      (if r₂ then b else 0) - (if r₁ then a else 0) ≤ b - a) ↔ (a ≠ 0 → r₁ = r₂) := by
  have hzero : a ≤ 0 ↔ a = 0 := ⟨fun h => le_antisymm h ha, fun h => h.le⟩
  cases r₁ <;> cases r₂
  · simpa using hab
  · simp [hzero, ha.trans hab]
  · simp [hzero, ha.trans hab]
  · simpa using hab

/-- A figure other than `0` is the difference to an entry of the call before that stood no
earlier. -/
theorem sec_mul_dt {k i : ℕ} {m : BcliMonitor} {c : Call} {t : UInt64} {thr : BcliThreadStat}
    {mode : CpuMode} (hk : (monitorRun calls)[k + 1]? = some (m, c))
    (hi : c.proc.tids[i]? = some t) (hthr : (c.result m).out.threads[i]? = some thr)
    (hne : mode.sec thr ≠ 0) :
    ∃ c' j, calls[k]? = some c' ∧ 0 < elapsed c'.proc c.proc ∧ c'.proc.tids[j]? = some t ∧ i ≤ j ∧
      0 < m.dt c.proc ∧ mode.sec thr * m.dt c.proc =
        mode.sec (c.proc.readThread t) - mode.sec (c'.proc.readThread t) := by
  obtain ⟨hdt, e, he, htid, hsec⟩ := sec_of_ne_zero m c hi hthr hne
  obtain ⟨m', c', hk', rfl⟩ := monitorRun_succ hk
  rw [stored_step, ProcFs.current, ← List.map_drop] at he
  obtain ⟨u, hu, rfl⟩ := List.mem_map.mp he
  rw [c'.proc.readThread_tid] at htid
  subst htid
  obtain ⟨n, hn⟩ := List.mem_iff_getElem?.mp hu
  rw [List.getElem?_drop] at hn
  refine ⟨c', i + n, monitorRun_call hk', ?_, hn, Nat.le_add_right i n, hdt, ?_⟩
  · rwa [dt_step] at hdt
  · rw [hsec, div_mul_cancel₀ _ hdt.ne']

/-- A thread listed no later than before finds its entry at its first place in the list. -/
theorem lookup_idxOf {m : BcliMonitor} {proc₁ proc₂ : ProcFs} {i j : ℕ} {t : UInt64}
    (hs : m.stored = proc₁.current) (hi : proc₂.tids[i]? = some t)
    (hj : proc₁.tids[j]? = some t) (hij : i ≤ j) :
    lookup proc₂.current m.prevThreads m.prevThreadCount (proc₂.tids.idxOf t)
      (proc₂.readThread t) = some (proc₁.readThread t) := by
  have ht := List.mem_of_getElem? hi
  have hle : proc₂.tids.idxOf t ≤ i := by
    have hmem : t ∈ proc₂.tids.take (i + 1) := by
      refine List.mem_of_getElem? (i := i) ?_
      rw [List.getElem?_take_of_lt (Nat.lt_succ_self i), hi]
    exact Nat.lt_succ_iff.mp ((List.mem_take_iff_idxOf_lt ht).mp hmem)
  have hold : proc₁.readThread t ∈ m.stored.drop (proc₂.tids.idxOf t) := by
    refine List.mem_of_getElem? (i := j - proc₂.tids.idxOf t) ?_
    rw [List.getElem?_drop, Nat.add_sub_cancel' (hle.trans hij), hs]
    exact getElem?_current proc₁ hj
  have hsearch := search_overwritten m.prevThreads (le_length_current (List.getElem?_idxOf ht))
    (tid_ne_of_mem_take_idxOf ht) m.prevThreadCount
  refine hsearch.trans (find?_eq_some_of_unique hold fun d hd hk => ?_)
  have hm := List.mem_of_mem_drop hd
  rw [hs] at hm
  rw [proc₁.readThread_tid] at hk
  rw [← (ProcFs.readThread_of_mem_current hm).2, hk]

/-- The figure of a thread listed no later than before is the difference of the two readings. -/
theorem exists_sec_mul_dt {k i j : ℕ} {c c' : Call} {t : UInt64} (hk : calls[k]? = some c)
    (hk' : calls[k + 1]? = some c') (hdt : 0 < elapsed c.proc c'.proc)
    (hi : c'.proc.tids[i]? = some t) (hj : c.proc.tids[j]? = some t) (hij : i ≤ j) :
    ∃ (m : BcliMonitor) (i' : ℕ) (thr : BcliThreadStat),
      (monitorRun calls)[k + 1]? = some (m, c') ∧ c'.proc.tids[i']? = some t ∧
      (c'.result m).out.threads[i']? = some thr ∧ 0 < m.dt c'.proc ∧
      ∀ mode : CpuMode, mode.sec thr * m.dt c'.proc =
        mode.sec (c'.proc.readThread t) - mode.sec (c.proc.readThread t) := by
  obtain ⟨m, hm⟩ := exists_monitorRun hk'
  obtain ⟨m', c'', hk'', rfl⟩ := monitorRun_succ hm
  obtain rfl : c'' = c := Option.some.inj ((monitorRun_call hk'').symm.trans hk)
  have hfirst := List.getElem?_idxOf (List.mem_of_getElem? hi)
  rw [← dt_step m'] at hdt
  refine ⟨c''.step m', _, _, hm, hfirst, getElem?_result_threads _ c' hfirst, hdt, fun mode => ?_⟩
  rw [lookup_idxOf (stored_step m' c'') hi hj hij, sec_report_some, if_pos hdt,
    div_mul_cancel₀ _ hdt.ne']

/-- The difference of the readings of two calls in a row is sound exactly when a counter other
than `0` was read twice or missed twice. -/
theorem KernelTimes.Agrees.difference_sound_iff (h : kernel.Agrees calls) {k : ℕ} {c c' : Call}
    (hk : calls[k]? = some c) (hk' : calls[k + 1]? = some c') (mode : CpuMode) (t : UInt64) :
    (0 ≤ mode.sec (c'.proc.readThread t) - mode.sec (c.proc.readThread t) ∧
      mode.sec (c'.proc.readThread t) - mode.sec (c.proc.readThread t) ≤
        mode.time (kernel.times (k + 1) t) - mode.time (kernel.times k t)) ↔
      (mode.time (kernel.times k t) ≠ 0 → c.proc.statRead t = c'.proc.statRead t) := by
  rw [h.sec_readThread hk, h.sec_readThread hk']
  exact Cputime.difference_sound_iff (kernel.nonneg k t mode)
    (kernel.monotone t mode (Nat.le_succ k)) _ _

/-- What a harmless run reports for a thread. -/
theorem Harmless.sec_sound (hh : Harmless calls kernel) (h : kernel.Agrees calls) {k i : ℕ}
    {m : BcliMonitor} {c : Call} {t : UInt64} {thr : BcliThreadStat} {mode : CpuMode}
    (hk : (monitorRun calls)[k + 1]? = some (m, c)) (hi : c.proc.tids[i]? = some t)
    (hthr : (c.result m).out.threads[i]? = some thr) :
    0 ≤ mode.sec thr ∧ mode.sec thr * m.dt c.proc ≤
      mode.time (kernel.times (k + 1) t) - mode.time (kernel.times k t) := by
  by_cases hne : mode.sec thr = 0
  · rw [hne, zero_mul]
    exact ⟨le_rfl, sub_nonneg.mpr (kernel.monotone t mode (Nat.le_succ k))⟩
  · obtain ⟨c', j, hk', hel, hj, hij, hdt, hsec⟩ := sec_mul_dt hk hi hthr hne
    have hk'' := monitorRun_call hk
    have hsound := (h.difference_sound_iff hk' hk'' mode t).mpr
      (hh.stat k i j c' c t mode hk' hk'' hel hi hj hij)
    rw [← hsec] at hsound
    exact ⟨nonneg_of_mul_nonneg_left hsound.1 hdt, hsound.2⟩

end Threads

/-- The figures of a run are sound exactly when its failed reads are harmless. -/
theorem sound_iff_harmless (calls : List Call) (kernel : KernelTimes) (h : kernel.Agrees calls) :
    Sound calls kernel ↔ Harmless calls kernel := by
  constructor
  · intro hs
    constructor
    · intro k c hk hnone
      obtain ⟨m, hm⟩ := exists_monitorRun hk
      rw [← prev_step_none hnone m]
      exact (hs.status k m c hm hnone).2.2
    · intro k i j c c' t mode hk hk' hel hi hj hij
      obtain ⟨m, i', thr, hm, hi', hthr, hdt, hsec⟩ := exists_sec_mul_dt hk hk' hel hi hj hij
      refine (h.difference_sound_iff hk hk' mode t).mp ⟨?_, ?_⟩
      · rw [← hsec]
        exact mul_nonneg (hs.nonneg _ _ _ _ _ _ mode hm hi' hthr) hdt.le
      · rw [← hsec]
        exact hs.bounded _ _ _ _ _ _ mode hm hi' hthr
  · intro hh
    constructor
    · intro k i m c t thr mode hk hi hthr
      cases k with
      | zero =>
        by_contra hlt
        obtain ⟨hdt, -⟩ := sec_of_ne_zero m c hi hthr (ne_of_lt (not_le.mp hlt))
        rw [monitorRun_zero hk, dt_new] at hdt
        exact lt_irrefl _ hdt
      | succ k => exact (hh.sec_sound h hk hi hthr).1
    · intro k i m c t thr mode hk hi hthr
      exact (hh.sec_sound h hk hi hthr).2
    · intro k m c hk hnone
      have hc := monitorRun_call hk
      have hlast := hh.status k c hc hnone
      have hprev := prev_eq_lastStatus hh.status hk
      obtain ⟨hv, hi⟩ := switches_eq_zero hnone (hlast.trans hprev.symm)
      exact ⟨hv, hi, (prev_step_none hnone m).trans hlast⟩

/-- The same readings with the stat file of one thread gone. -/
def ProcFs.withoutStat (proc : ProcFs) (u : UInt64) : ProcFs :=
  { proc with stat := fun t => if t = u then none else proc.stat t }

theorem statRead_withoutStat (proc : ProcFs) (u t : UInt64) :
    (proc.withoutStat u).statRead t = (decide (t ≠ u) && proc.statRead t) := by
  by_cases h : t = u
  · simp [ProcFs.statRead, ProcFs.withoutStat, readThreadStat, h]
  · simp [ProcFs.statRead, ProcFs.withoutStat, h]

theorem times_withoutStat (proc : ProcFs) {u t : UInt64} (h : t ≠ u) :
    (proc.withoutStat u).times t = proc.times t := by
  simp [ProcFs.times, ProcFs.withoutStat, h]

/-- Every thread has used one second in user mode and half a second in the system. -/
def restingTimes : KernelTimes where
  times := fun _ _ => (1, 1 / 2)
  nonneg := fun _ _ mode => by cases mode <;> decide +kernel
  monotone := fun _ _ => monotone_const

theorem times_resting (sec : UInt64) (task : List String) (t : UInt64) :
    (readingsAt sec task "100 50").times t = (1, 1 / 2) := by
  rw [times_readingsAt]
  decide +kernel

theorem times_resting_withoutStat (sec : UInt64) (task : List String) {u t : UInt64}
    (h : ((readingsAt sec task "100 50").withoutStat u).statRead t = true) :
    ((readingsAt sec task "100 50").withoutStat u).times t = (1, 1 / 2) := by
  rw [statRead_withoutStat, Bool.and_eq_true, decide_eq_true_iff] at h
  rw [times_withoutStat _ h.1, times_resting]

/-- Thread `12` is missed twice and the second status file is gone. -/
def missedTwice : List Call :=
  [⟨(readingsAt 5 ["11", "12"] "100 50").withoutStat 12, emptySnapshot⟩,
    ⟨{ (readingsAt 6 ["12", "11"] "100 50").withoutStat 12 with status := none }, emptySnapshot⟩]

theorem missedTwice_agrees : restingTimes.Agrees missedTwice := by
  intro k c t hk hr
  match k, hk with
  | 0, rfl => exact times_resting_withoutStat 5 ["11", "12"] hr
  | 1, rfl => exact times_resting_withoutStat 6 ["12", "11"] hr

theorem statRead_missedTwice {k : ℕ} {c : Call} (hk : missedTwice[k]? = some c) (t : UInt64) :
    c.proc.statRead t = decide (t ≠ 12) := by
  match k, hk with
  | 0, rfl =>
    exact (statRead_withoutStat (readingsAt 5 ["11", "12"] "100 50") 12 t).trans (Bool.and_true _)
  | 1, rfl =>
    exact (statRead_withoutStat (readingsAt 6 ["12", "11"] "100 50") 12 t).trans (Bool.and_true _)

theorem missedTwice_harmless : Harmless missedTwice restingTimes where
  status := by
    intro k c hk hnone
    match k, hk with
    | 0, rfl => cases hnone
    | 1, rfl => decide +kernel
  stat := by
    intro k i j c c' t mode hk hk' _ _ _ _ _
    rw [statRead_missedTwice hk, statRead_missedTwice hk']

/-- The run is sound although three reads fail. -/
theorem missedTwice_sound : Sound missedTwice restingTimes :=
  (sound_iff_harmless missedTwice restingTimes missedTwice_agrees).mpr missedTwice_harmless

/-- A thread read once and missed once reports one second of user time less than none. -/
theorem not_sound : ¬ ∀ (calls : List Call) (kernel : KernelTimes), kernel.Agrees calls →
    Sound calls kernel := by
  intro h
  have hs := h [⟨readingsAt 5 ["11"] "100 50", emptySnapshot⟩,
    ⟨(readingsAt 6 ["11"] "100 50").withoutStat 11, emptySnapshot⟩] restingTimes ?_
  · have hneg := hs.nonneg 1 0 _ _ 11 _ .user rfl rfl rfl
    exact absurd hneg (by decide +kernel)
  · intro k c t hk hr
    match k, hk with
    | 0, rfl => exact times_resting 5 ["11"] t
    | 1, rfl => exact times_resting_withoutStat 6 ["11"] hr

end DdsBenchmark.Cputime
