import DdsBenchmark.Cputime.Matching
import DdsBenchmark.Stream.Visits
import Mathlib.Tactic.Positivity

/-! Runs of the monitor: snapshots in a row from the constructed object. Before each snapshot
but the first, the live table, the clock and the status counters are those of the snapshot
before it; no older entry is within reach of a search. -/

namespace DdsBenchmark.Cputime

open Overwrite Visits

/-- One call of `snapshot`: what the system hands to it and the buffer it fills. -/
structure Call where
  proc : ProcFs
  out : BcliSnapshot

def Call.result (m : BcliMonitor) (c : Call) : SnapshotResult := m.snapshot c.proc c.out

def Call.step (m : BcliMonitor) (c : Call) : BcliMonitor := (c.result m).monitor

/-- The calls of a run, each with the monitor it finds. -/
def monitorRun (calls : List Call) : List (BcliMonitor × Call) :=
  visits Call.step BcliMonitor.new calls

/-- Seconds between two snapshots as the later one computes them. -/
def elapsed (proc₁ proc₂ : ProcFs) : ℚ :=
  if getTimestampNs proc₁ > 0 then
    ((getTimestampNs proc₂ - getTimestampNs proc₁).toNat : ℚ) / 1000000000 else 0

theorem dt_step (m : BcliMonitor) (c₁ c₂ : Call) :
    (c₁.step m).dt c₂.proc = elapsed c₁.proc c₂.proc := rfl

theorem stored_step (m : BcliMonitor) (c : Call) : (c.step m).stored = c.proc.current :=
  stored_snapshot m c.proc c.out

@[simp] theorem stored_new : BcliMonitor.new.stored = [] := rfl

@[simp] theorem dt_new (proc : ProcFs) : BcliMonitor.new.dt proc = 0 := rfl

/-- The first call finds the constructed monitor. -/
theorem monitorRun_zero {calls : List Call} {m : BcliMonitor} {c : Call}
    (h : (monitorRun calls)[0]? = some (m, c)) : m = BcliMonitor.new := by
  rw [monitorRun, getElem?_visits] at h
  obtain ⟨_, _, he⟩ := Option.map_eq_some_iff.mp h
  exact (congrArg Prod.fst he).symm

/-- Every other call finds what the call before it left. -/
theorem monitorRun_succ {calls : List Call} {k : ℕ} {m : BcliMonitor} {c : Call}
    (h : (monitorRun calls)[k + 1]? = some (m, c)) :
    ∃ m' c', (monitorRun calls)[k]? = some (m', c') ∧ m = c'.step m' := by
  obtain ⟨⟨m', c'⟩, hw, hm⟩ := getElem?_visits_succ _ h
  exact ⟨m', c', hw, hm⟩

theorem monitorRun_call {calls : List Call} {k : ℕ} {m : BcliMonitor} {c : Call}
    (h : (monitorRun calls)[k]? = some (m, c)) : calls[k]? = some c := by
  rw [monitorRun, getElem?_visits] at h
  obtain ⟨x, hx, he⟩ := Option.map_eq_some_iff.mp h
  exact hx.trans (congrArg some (congrArg Prod.snd he))

theorem exists_monitorRun {calls : List Call} {k : ℕ} {c : Call} (h : calls[k]? = some c) :
    ∃ m, (monitorRun calls)[k]? = some (m, c) := by
  rw [monitorRun, getElem?_visits, h]
  exact ⟨_, rfl⟩

/-- Time that passed, on a clock that did not go back. -/
theorem elapsed_of_pos {proc₁ proc₂ : ProcFs} (h : 0 < elapsed proc₁ proc₂)
    (hle : getTimestampNs proc₁ ≤ getTimestampNs proc₂) :
    elapsed proc₁ proc₂ =
      (((getTimestampNs proc₂).toNat : ℚ) - (getTimestampNs proc₁).toNat) / 1000000000 := by
  unfold elapsed at h ⊢
  split_ifs at h ⊢ with hpos
  · rw [UInt64.toNat_sub_of_le _ _ hle, Nat.cast_sub (UInt64.le_iff_toNat_le.mp hle)]
  · exact absurd h (lt_irrefl 0)

/-- Whatever the enumerations list, a thread finds nothing, an entry of its own written in this
snapshot, or its entry of the table not yet overwritten. -/
theorem lookup_cases (m : BcliMonitor) {proc : ProcFs} {i : ℕ} {t : UInt64}
    (hi : proc.tids[i]? = some t) :
    let found := lookup proc.current m.prevThreads m.prevThreadCount i (proc.readThread t)
    found = none ∨ found = some (proc.readThread t) ∨
      ∃ e ∈ m.stored.drop i, e.tid = t ∧ found = some e := by
  intro found
  cases hf : found with
  | none => exact Or.inl rfl
  | some e =>
    have hk : e.tid = t := key_of_search hf
    rcases mem_of_search_overwritten (le_length_current hi) hf with hc | hm
    · refine Or.inr (Or.inl ?_)
      rw [← hk, (ProcFs.readThread_of_mem_current (List.mem_of_mem_take hc)).2]
    · exact Or.inr (Or.inr ⟨e, hm, hk, rfl⟩)

/-- What a thread of the enumeration reports. -/
theorem getElem?_result_threads (m : BcliMonitor) (c : Call) {i : ℕ} {t : UInt64}
    (hi : c.proc.tids[i]? = some t) :
    (c.result m).out.threads[i]? =
      some (report (lookup c.proc.current m.prevThreads m.prevThreadCount i (c.proc.readThread t))
        (m.dt c.proc) (c.proc.readThread t)).1 :=
  getElem?_threads m c.proc c.out (getElem?_current c.proc hi)

/-- A figure other than `0` comes from an entry of the table with the same identifier. -/
theorem sec_of_ne_zero (m : BcliMonitor) (c : Call) {i : ℕ} {t : UInt64} {thr : BcliThreadStat}
    (hi : c.proc.tids[i]? = some t) (hthr : (c.result m).out.threads[i]? = some thr)
    {mode : CpuMode} (hne : mode.sec thr ≠ 0) :
    0 < m.dt c.proc ∧ ∃ e ∈ m.stored.drop i, e.tid = t ∧
      mode.sec thr = (mode.sec (c.proc.readThread t) - mode.sec e) / m.dt c.proc := by
  rw [getElem?_result_threads m c hi] at hthr
  obtain rfl := Option.some.inj hthr
  rcases lookup_cases m hi with hf | hf | ⟨e, he, hk, hf⟩
  · rw [hf, sec_report_none] at hne
    exact absurd rfl hne
  · rw [hf, sec_report_some, sub_self, zero_div, ite_self] at hne
    exact absurd rfl hne
  · rw [hf, sec_report_some] at hne ⊢
    have hdt : 0 < m.dt c.proc := by
      by_contra hle
      exact hne (if_neg hle)
    exact ⟨hdt, e, he, hk, if_pos hdt⟩

end DdsBenchmark.Cputime
