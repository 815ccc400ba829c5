import DdsBenchmark.Cputime.Monitor

/-! What one snapshot computes, read off its walk once. Before pass `i` the stored table holds
the current entries below `i` and the previous ones from `i` on, so thread `i` is looked up in
that mixture. After the walk the live part of the table is exactly the current snapshot. -/

namespace DdsBenchmark.Cputime

open Overwrite

/-- The two times kept for a thread. -/
inductive CpuMode where
  | user
  | sys
  deriving DecidableEq

/-- The figure of an entry. -/
def CpuMode.sec : CpuMode → BcliThreadStat → ℚ
  | .user, thr => thr.userSec
  | .sys, thr => thr.sysSec

/-- The component of a pair of times. -/
def CpuMode.time : CpuMode → ℚ × ℚ → ℚ
  | .user, times => times.1
  | .sys, times => times.2

/-! ### One report -/

@[simp] theorem report_tid (prev : Option BcliThreadStat) (dt : ℚ) (cur : BcliThreadStat) :
    (report prev dt cur).1.tid = cur.tid := by
  unfold report
  cases prev with
  | none => rfl
  | some prev =>
    dsimp only
    split_ifs <;> rfl

@[simp] theorem sec_report_none (mode : CpuMode) (dt : ℚ) (cur : BcliThreadStat) :
    mode.sec (report none dt cur).1 = 0 := by
  cases mode <;> rfl

/-- A matched thread reports its growth over the time, once time has passed. -/
theorem sec_report_some (mode : CpuMode) (prev cur : BcliThreadStat) (dt : ℚ) :
    mode.sec (report (some prev) dt cur).1 =
      if 0 < dt then (mode.sec cur - mode.sec prev) / dt else 0 := by
  unfold report
  dsimp only
  by_cases hdt : 0 < dt
  · rw [if_pos hdt, if_pos hdt]
    cases mode <;> rfl
  · rw [if_neg hdt, if_neg hdt]
    cases mode <;> rfl

/-! ### The walk -/

/-- The entry found for `c` when `i` cells of the table have been overwritten. -/
def lookup (cur old : List BcliThreadStat) (count i : ℕ) (c : BcliThreadStat) :
    Option BcliThreadStat :=
  search BcliThreadStat.tid (overwritten cur old i) count c.tid

/-- What the walk reports, thread by thread. -/
def reports (cur old : List BcliThreadStat) (count : ℕ) (dt : ℚ) : List (BcliThreadStat × Bool) :=
  cur.mapIdx fun i c => report (lookup cur old count i c) dt c

/-- The walk before pass `i`. -/
structure WalkInv (cur old threads : List BcliThreadStat) (count : ℕ) (dt : ℚ) (i : ℕ)
    (s : Sweep) : Prop where
  prevThreads : s.prevThreads = overwritten cur old i
  threads : s.threads = overwritten ((reports cur old count dt).map Prod.fst) threads i
  anyAbove : s.anyAbove = ((reports cur old count dt).take i).any Prod.snd

section Walk
variable {cur old threads : List BcliThreadStat} {count : ℕ} {dt : ℚ}

theorem getElem?_reports {i : ℕ} {c : BcliThreadStat} (hc : cur[i]? = some c) :
    (reports cur old count dt)[i]? = some (report (lookup cur old count i c) dt c) := by
  simp [reports, List.getElem?_mapIdx, hc]

@[simp] theorem length_reports : (reports cur old count dt).length = cur.length := by
  simp [reports]

/-- The reports keep the identifiers in place. -/
theorem map_tid_reports :
    ((reports cur old count dt).map Prod.fst).map BcliThreadStat.tid =
      cur.map BcliThreadStat.tid := by
  apply List.ext_getElem?
  intro i
  cases hc : cur[i]? with
  | none => simp [reports, hc]
  | some c =>
    simp only [List.getElem?_map, getElem?_reports hc, hc, Option.map_some, report_tid]

/-- One pass keeps the invariant. -/
theorem WalkInv.step {i : ℕ} {s : Sweep} {c : BcliThreadStat}
    (h : WalkInv cur old threads count dt i s) (hc : cur[i]? = some c) (ho : i < old.length)
    (ht : i < threads.length) :
    WalkInv cur old threads count dt (i + 1) (sweepStep count dt s i c) := by
  have hr : (reports cur old count dt)[i]? = _ := getElem?_reports hc
  constructor
  · simp only [sweepStep, h.prevThreads]
    exact overwritten_set hc ho
  · simp only [sweepStep, h.threads, h.prevThreads]
    exact overwritten_set (by rw [List.getElem?_map, hr]; rfl) ht
  · obtain ⟨hi, he⟩ := List.getElem?_eq_some_iff.mp hr
    rw [List.take_succ_eq_append_getElem hi, List.any_append, he]
    simp [sweepStep, h.anyAbove, h.prevThreads, lookup]

/-- The walk from pass `i` on. -/
theorem WalkInv.sweep {rest : List BcliThreadStat} {i : ℕ} {s : Sweep}
    (h : WalkInv cur old threads count dt i s) (hrest : cur.drop i = rest)
    (hlen : cur.length ≤ bcliMaxThreads) (ho : cur.length ≤ old.length)
    (ht : cur.length ≤ threads.length) (hi : i ≤ cur.length) :
    WalkInv cur old threads count dt cur.length (Cputime.sweep count dt i rest s) := by
  induction rest generalizing i s with
  | nil =>
    have : i = cur.length := by
      have := List.drop_eq_nil_iff.mp hrest
      omega
    rwa [this] at h
  | cons c rest ih =>
    have hlt : i < cur.length := by
      by_contra hge
      rw [List.drop_eq_nil_of_le (by omega)] at hrest
      simp at hrest
    rw [List.drop_eq_getElem_cons hlt] at hrest
    obtain ⟨hc, hr⟩ := List.cons.inj hrest
    rw [Cputime.sweep, if_pos (by omega)]
    exact ih (h.step (List.getElem?_eq_some_iff.mpr ⟨hlt, hc⟩) (by omega) (by omega)) hr hlt

end Walk

section Snapshot
variable (m : BcliMonitor) (proc : ProcFs) (out : BcliSnapshot)

/-- The entries of the previous snapshot. -/
def BcliMonitor.stored : List BcliThreadStat := m.prevThreads.take m.prevThreadCount

theorem walk_inv :
    WalkInv proc.current m.prevThreads out.threads m.prevThreadCount (m.dt proc)
      proc.current.length (m.walk proc out.threads) := by
  have hl := proc.length_tids_le
  refine WalkInv.sweep (i := 0) ⟨rfl, rfl, rfl⟩ rfl ?_ ?_ ?_ (Nat.zero_le _)
  · rwa [proc.length_current]
  · rwa [proc.length_current, m.prevThreads_length]
  · rwa [proc.length_current, out.threads_length]

/-- What thread `i` reports. -/
theorem getElem?_threads {i : ℕ} {c : BcliThreadStat} (hc : proc.current[i]? = some c) :
    (m.snapshot proc out).out.threads[i]? =
      some (report (lookup proc.current m.prevThreads m.prevThreadCount i c) (m.dt proc) c).1 := by
  have ht := (walk_inv m proc out).threads
  have hi := (List.getElem?_eq_some_iff.mp hc).1
  change (m.walk proc out.threads).threads[i]? = _
  rw [ht, overwritten, List.take_of_length_le (by simp),
    List.getElem?_append_left (by simpa using hi), List.getElem?_map, getElem?_reports hc]
  rfl

/-- The reported threads, in the order of the enumeration. -/
theorem take_threads :
    (m.snapshot proc out).out.threads.take proc.tids.length =
      (reports proc.current m.prevThreads m.prevThreadCount (m.dt proc)).map Prod.fst := by
  change (m.walk proc out.threads).threads.take _ = _
  rw [(walk_inv m proc out).threads, proc.length_current]
  exact take_overwritten_of_length_eq _ _ (by simp)

theorem snapshot_anyAbove :
    (m.snapshot proc out).anyAbove =
      (reports proc.current m.prevThreads m.prevThreadCount (m.dt proc)).any Prod.snd := by
  have ht := (walk_inv m proc out).anyAbove
  rw [List.take_of_length_le (by simp)] at ht
  exact ht

@[simp] theorem prevVcsw_snapshot :
    (m.snapshot proc out).monitor.prevVcsw = (readStatus proc.status proc.unassigned).vcsw := rfl

@[simp] theorem prevIvcsw_snapshot :
    (m.snapshot proc out).monitor.prevIvcsw = (readStatus proc.status proc.unassigned).ivcsw := rfl

/-- After a snapshot the live part of the table is that snapshot. -/
theorem stored_snapshot : (m.snapshot proc out).monitor.stored = proc.current := by
  change (m.walk proc out.threads).prevThreads.take proc.tids.length = _
  rw [(walk_inv m proc out).prevThreads, proc.length_current]
  exact take_overwritten_of_length_eq _ _ proc.length_current

end Snapshot

end DdsBenchmark.Cputime
