import DdsBenchmark.Cputime.Walk

/-! When the entry of a surviving thread is found. The walk overwrites the table it searches,
so the entry of a thread that stood at `j` is gone before pass `i` as soon as `j < i`: a thread
is matched exactly when it stands no later in the new enumeration than in the old one. While
that holds for every survivor, a snapshot agrees with one that searches an untouched copy of
the table, and is therefore blind to the order of the enumeration. -/

namespace DdsBenchmark.Cputime

open Overwrite

/-- The entry that pass `i` of a snapshot finds for its thread. -/
def BcliMonitor.matched (m : BcliMonitor) (proc : ProcFs) (out : BcliSnapshot) (i : ℕ) :
    Option BcliThreadStat :=
  let s := sweep m.prevThreadCount (m.dt proc) 0 (proc.current.take i)
    ⟨m.prevThreads, out.threads, false⟩
  (proc.current[i]?).bind fun c => search BcliThreadStat.tid s.prevThreads m.prevThreadCount c.tid

/-- The two times that a read of one thread yields. -/
def ProcFs.times (proc : ProcFs) (tid : UInt64) : ℚ × ℚ :=
  (readThreadStat (proc.stat tid) proc.clkTck (0, 0)).2

def ProcFs.statRead (proc : ProcFs) (tid : UInt64) : Bool :=
  (readThreadStat (proc.stat tid) proc.clkTck (0, 0)).1

/-- Every file that the snapshot needs can be read. -/
structure ReadsSucceed (proc : ProcFs) : Prop where
  status : proc.status.isSome
  task : proc.task.isSome
  stat : ∀ tid ∈ proc.tids, proc.statRead tid = true

theorem sec_readThread (mode : CpuMode) (proc : ProcFs) (tid : UInt64) :
    mode.sec (proc.readThread tid) =
      if proc.statRead tid then mode.time (proc.times tid) else 0 := by
  cases mode <;> rfl

/-- Every thread of both enumerations stands no later in the new one. -/
def KeepsAhead (old new : List UInt64) : Prop := ∀ t ∈ new, t ∈ old → new.idxOf t ≤ old.idxOf t

instance (old new : List UInt64) : Decidable (KeepsAhead old new) :=
  List.decidableBAll (fun t => t ∈ old → new.idxOf t ≤ old.idxOf t) new

/-- Every surviving thread is matched to its entry of the earlier snapshot and reports the
growth of its times over the time between the two. -/
def Complete (m : BcliMonitor) (proc₁ proc₂ : ProcFs) (out₁ out₂ : BcliSnapshot) : Prop :=
  let m₁ := (m.snapshot proc₁ out₁).monitor
  ∀ i t, proc₂.tids[i]? = some t → t ∈ proc₁.tids →
    m₁.matched proc₂ out₂ i = some (proc₁.readThread t) ∧
      ∃ thr, (m₁.snapshot proc₂ out₂).out.threads[i]? = some thr ∧ thr.tid = t ∧
        ∀ mode : CpuMode, mode.sec thr =
          (mode.time (proc₂.times t) - mode.time (proc₁.times t)) / m₁.dt proc₂

section Matched
variable (m : BcliMonitor) (proc : ProcFs) (out : BcliSnapshot)

/-- The search of pass `i`, in terms of the mixed table. -/
theorem matched_eq {i : ℕ} {c : BcliThreadStat} (hc : proc.current[i]? = some c) :
    m.matched proc out i = lookup proc.current m.prevThreads m.prevThreadCount i c := by
  have hi := (List.getElem?_eq_some_iff.mp hc).1
  have hl := proc.length_tids_le
  rw [← proc.length_current] at hl
  have hlen : (proc.current.take i).length = i := List.length_take_of_le (Nat.le_of_lt hi)
  have hinv : WalkInv (proc.current.take i) m.prevThreads out.threads m.prevThreadCount
      (m.dt proc) (proc.current.take i).length
      (sweep m.prevThreadCount (m.dt proc) 0 (proc.current.take i)
        ⟨m.prevThreads, out.threads, false⟩) := by
    refine WalkInv.sweep (i := 0) ⟨rfl, rfl, rfl⟩ rfl ?_ ?_ ?_ (Nat.zero_le _)
    · omega
    · rw [m.prevThreads_length]; omega
    · rw [out.threads_length]; omega
  have ht := hinv.prevThreads
  rw [hlen] at ht
  simp only [BcliMonitor.matched, hc, Option.bind_some, ht, lookup, overwritten, List.take_take,
    Nat.min_self]

theorem getElem?_current {i : ℕ} {t : UInt64} (h : proc.tids[i]? = some t) :
    proc.current[i]? = some (proc.readThread t) := by
  rw [ProcFs.current, List.getElem?_map, h, Option.map_some]

end Matched

/-! ### Two consecutive snapshots -/

section Pair
variable {m : BcliMonitor} {proc₁ proc₂ : ProcFs} (hs : m.stored = proc₁.current)

theorem idxOf_eq {tids : List UInt64} (hnd : tids.Nodup) {i : ℕ} {t : UInt64}
    (hi : tids[i]? = some t) : tids.idxOf t = i := by
  obtain ⟨hl, rfl⟩ := List.getElem?_eq_some_iff.mp hi
  exact hnd.idxOf_getElem i hl

/-- A thread has not been written before its first place in the enumeration. -/
theorem tid_ne_of_mem_take_idxOf {proc : ProcFs} {t : UInt64} (ht : t ∈ proc.tids) :
    ∀ c ∈ proc.current.take (proc.tids.idxOf t), c.tid ≠ t := by
  intro c hc he
  rw [ProcFs.current, ← List.map_take] at hc
  obtain ⟨u, hu, rfl⟩ := List.mem_map.mp hc
  rw [proc.readThread_tid] at he
  subst he
  exact lt_irrefl _ ((List.mem_take_iff_idxOf_lt ht).mp hu)

/-- A distinct thread has not been written before its own pass. -/
theorem tid_ne_of_mem_take {proc : ProcFs} (hnd : proc.tids.Nodup) {i : ℕ} {t : UInt64}
    (hi : proc.tids[i]? = some t) : ∀ c ∈ proc.current.take i, c.tid ≠ t := by
  have hfirst := tid_ne_of_mem_take_idxOf (List.mem_of_getElem? hi)
  rwa [idxOf_eq hnd hi] at hfirst

theorem le_length_current {proc : ProcFs} {i : ℕ} {t : UInt64} (hi : proc.tids[i]? = some t) :
    i ≤ proc.current.length := by
  rw [proc.length_current]
  exact Nat.le_of_lt (List.getElem?_eq_some_iff.mp hi).1

include hs in
/-- A surviving thread finds its earlier entry when it stands no later than it stood. -/
theorem lookup_of_le (hnd₁ : proc₁.tids.Nodup) (hnd₂ : proc₂.tids.Nodup) {i j : ℕ} {t : UInt64}
    (hi : proc₂.tids[i]? = some t) (hj : proc₁.tids[j]? = some t) (hij : i ≤ j) :
    lookup proc₂.current m.prevThreads m.prevThreadCount i (proc₂.readThread t) =
      some (proc₁.readThread t) := by
  refine search_overwritten_of_le (j := j) (e := proc₁.readThread t) (le_length_current hi)
    (tid_ne_of_mem_take hnd₂ hi) ?_ ?_ hij
  · rw [← proc₁.map_tid_current, ← hs] at hnd₁
    exact hnd₁
  · exact (congrArg (·[j]?) hs).trans (getElem?_current proc₁ hj)

include hs in
/-- A surviving thread finds nothing when it stands later than it stood. -/
theorem lookup_of_lt (hnd₁ : proc₁.tids.Nodup) (hnd₂ : proc₂.tids.Nodup) {i j : ℕ} {t : UInt64}
    (hi : proc₂.tids[i]? = some t) (hj : proc₁.tids[j]? = some t) (hji : j < i) :
    lookup proc₂.current m.prevThreads m.prevThreadCount i (proc₂.readThread t) = none := by
  refine search_overwritten_of_lt (j := j) (e := proc₁.readThread t) (le_length_current hi)
    (tid_ne_of_mem_take hnd₂ hi) ?_ ?_ hji
  · rw [← proc₁.map_tid_current, ← hs] at hnd₁
    exact hnd₁
  · exact (congrArg (·[j]?) hs).trans (getElem?_current proc₁ hj)

include hs in
/-- A new thread finds nothing. -/
theorem lookup_of_not_mem (hnd₂ : proc₂.tids.Nodup) {i : ℕ} {t : UInt64}
    (hi : proc₂.tids[i]? = some t) (ht : t ∉ proc₁.tids) :
    lookup proc₂.current m.prevThreads m.prevThreadCount i (proc₂.readThread t) = none := by
  refine (search_overwritten _ (le_length_current hi) (tid_ne_of_mem_take hnd₂ hi) _).trans ?_
  rw [List.find?_eq_none]
  intro c hc hk
  have hm : c ∈ proc₁.current := hs ▸ List.mem_of_mem_drop hc
  have hk' : c.tid = t := by simpa using hk
  exact ht (hk' ▸ (ProcFs.readThread_of_mem_current hm).1)

include hs in
/-- While every survivor keeps ahead, the walk reports what a search of an untouched copy of
the table would. -/
theorem reports_of_keepsAhead (hnd₁ : proc₁.tids.Nodup) (hnd₂ : proc₂.tids.Nodup)
    (hk : KeepsAhead proc₁.tids proc₂.tids) (dt : ℚ) :
    reports proc₂.current m.prevThreads m.prevThreadCount dt =
      proc₂.tids.map fun t =>
        report (if t ∈ proc₁.tids then some (proc₁.readThread t) else none) dt
          (proc₂.readThread t) := by
  apply List.ext_getElem?
  intro i
  cases hi : proc₂.tids[i]? with
  | none => simp [reports, ProcFs.current, hi]
  | some t =>
    rw [getElem?_reports (getElem?_current proc₂ hi), List.getElem?_map, hi, Option.map_some]
    by_cases ht : t ∈ proc₁.tids
    · have h₂ := List.mem_of_getElem? hi
      have hle := hk t h₂ ht
      rw [idxOf_eq hnd₂ hi] at hle
      rw [if_pos ht, lookup_of_le hs hnd₁ hnd₂ hi (List.getElem?_idxOf ht) hle]
    · rw [if_neg ht, lookup_of_not_mem hs hnd₂ hi ht]

end Pair

section Complete
variable (m : BcliMonitor) (proc₁ proc₂ : ProcFs) (out₁ out₂ : BcliSnapshot)

/-- The same readings under another enumeration. -/
def ProcFs.relisted (proc : ProcFs) (task : Option (List (List Char))) : ProcFs :=
  { proc with task := task }

/-- Two enumerations of the same threads, both with every survivor kept ahead, report the same
up to order. -/
theorem threads_perm_of_keepsAhead {m : BcliMonitor} (hs : m.stored = proc₁.current)
    (task : Option (List (List Char))) (hp : (proc₂.relisted task).tids.Perm proc₂.tids)
    (hnd₁ : proc₁.tids.Nodup) (hnd₂ : proc₂.tids.Nodup) (hk₂ : KeepsAhead proc₁.tids proc₂.tids)
    (hk₃ : KeepsAhead proc₁.tids (proc₂.relisted task).tids) :
    ((m.snapshot (proc₂.relisted task) out₂).out.threads.take
          (proc₂.relisted task).tids.length).Perm
        ((m.snapshot proc₂ out₂).out.threads.take proc₂.tids.length) ∧
      (m.snapshot (proc₂.relisted task) out₂).anyAbove = (m.snapshot proc₂ out₂).anyAbove := by
  have hr₂ := reports_of_keepsAhead hs hnd₁ hnd₂ hk₂ (m.dt proc₂)
  have hr₃ := reports_of_keepsAhead hs hnd₁ (hp.nodup_iff.mpr hnd₂) hk₃ (m.dt proc₂)
  have hperm : (reports (proc₂.relisted task).current m.prevThreads m.prevThreadCount
      (m.dt (proc₂.relisted task))).Perm
        (reports proc₂.current m.prevThreads m.prevThreadCount (m.dt proc₂)) := by
    rw [hr₂]
    exact hr₃ ▸ hp.map _
  rw [take_threads, take_threads, snapshot_anyAbove, snapshot_anyAbove]
  exact ⟨hperm.map _, hperm.any_eq⟩

/-- Per-thread figures are complete exactly when no surviving thread stands later in the new
enumeration than in the old one; among such enumerations the order does not matter. -/
theorem complete_iff_keepsAhead (h₁ : ReadsSucceed proc₁) (h₂ : ReadsSucceed proc₂)
    (hnd₁ : proc₁.tids.Nodup) (hnd₂ : proc₂.tids.Nodup)
    (hdt : 0 < (m.snapshot proc₁ out₁).monitor.dt proc₂) :
    (Complete m proc₁ proc₂ out₁ out₂ ↔ KeepsAhead proc₁.tids proc₂.tids) ∧
      ∀ task, (proc₂.relisted task).tids.Perm proc₂.tids → KeepsAhead proc₁.tids proc₂.tids →
        KeepsAhead proc₁.tids (proc₂.relisted task).tids →
        let m₁ := (m.snapshot proc₁ out₁).monitor
        ((m₁.snapshot (proc₂.relisted task) out₂).out.threads.take
              (proc₂.relisted task).tids.length).Perm
            ((m₁.snapshot proc₂ out₂).out.threads.take proc₂.tids.length) ∧
          (m₁.snapshot (proc₂.relisted task) out₂).anyAbove =
            (m₁.snapshot proc₂ out₂).anyAbove := by
  have hs := stored_snapshot m proc₁ out₁
  refine ⟨⟨fun h t ht₂ ht₁ => ?_, fun hk i t hi ht => ?_⟩, fun task hp hk₂ hk₃ =>
    threads_perm_of_keepsAhead _ _ _ hs task hp hnd₁ hnd₂ hk₂ hk₃⟩
  · by_contra hlt
    have hi := List.getElem?_idxOf ht₂
    have hm := (h _ t hi ht₁).1
    rw [matched_eq _ _ _ (getElem?_current proc₂ hi),
      lookup_of_lt hs hnd₁ hnd₂ hi (List.getElem?_idxOf ht₁) (by omega)] at hm
    cases hm
  · have hc := getElem?_current proc₂ hi
    have hle := hk t (List.mem_of_getElem? hi) ht
    rw [idxOf_eq hnd₂ hi] at hle
    have hf := lookup_of_le hs hnd₁ hnd₂ hi (List.getElem?_idxOf ht) hle
    refine ⟨by rw [matched_eq _ _ _ hc, hf], _, getElem?_threads _ _ _ hc, report_tid _ _ _,
      fun mode => ?_⟩
    rw [hf, sec_report_some, if_pos hdt, sec_readThread, sec_readThread,
      if_pos (h₂.stat t (List.mem_of_getElem? hi)), if_pos (h₁.stat t ht)]

end Complete

/-- Readings at second `sec`, with the same user and system ticks in every stat line. -/
def readingsAt (sec : UInt64) (task : List String) (ticks : String) : ProcFs where
  tvSec := sec
  tvNsec := 0
  status := some "VmRSS:\t 2048 kB\n".toList
  unassigned := ⟨0, 0, 0⟩
  task := some (task.map String.toList)
  stat := fun _ =>
    some ("1 (bcli) S 1 1 1 0 -1 0 0 0 0 0 ".toList ++ ticks.toList ++ " 20 0".toList)
  comm := fun _ => some "bcli\n".toList
  clkTck := 100

theorem times_readingsAt (sec : UInt64) (task : List String) (ticks : String) (tid : UInt64) :
    (readingsAt sec task ticks).times tid =
      (readThreadStat (some ("1 (bcli) S 1 1 1 0 -1 0 0 0 0 0 ".toList ++ ticks.toList ++
        " 20 0".toList)) 100 (0, 0)).2 := rfl

/-- A snapshot buffer that has not been used. -/
def emptySnapshot : BcliSnapshot where
  timestampNs := 0
  vcsw := 0
  ivcsw := 0
  rssKb := 0
  numThreads := 0
  threads := zeroedThreads
  threads_length := length_zeroedThreads

/-- Threads `11`, `12`, `13`; then `11` is gone, `14` is new and `13` stands before `12`. -/
theorem complete_after_exit :
    Complete BcliMonitor.new (readingsAt 5 [".", "..", "11", "12", "13"] "100 50")
      (readingsAt 6 [".", "..", "13", "12", "14"] "150 60") emptySnapshot emptySnapshot :=
  (complete_iff_keepsAhead BcliMonitor.new (readingsAt 5 [".", "..", "11", "12", "13"] "100 50")
    (readingsAt 6 [".", "..", "13", "12", "14"] "150 60") emptySnapshot emptySnapshot
    ⟨rfl, rfl, fun _ _ => rfl⟩ ⟨rfl, rfl, fun _ _ => rfl⟩ (by decide) (by decide)
    (by decide +kernel)).1.mpr (by decide)

/-- A thread listed in front of the only old one hides it: its usage reads as `0`. -/
theorem not_complete :
    ¬ ∀ (m : BcliMonitor) (proc₁ proc₂ : ProcFs) (out₁ out₂ : BcliSnapshot), ReadsSucceed proc₁ →
      ReadsSucceed proc₂ → proc₁.tids.Nodup → proc₂.tids.Nodup →
      0 < (m.snapshot proc₁ out₁).monitor.dt proc₂ → Complete m proc₁ proc₂ out₁ out₂ := by
  intro h
  have hc := h BcliMonitor.new (readingsAt 5 ["11"] "100 50") (readingsAt 6 ["12", "11"] "150 60")
    emptySnapshot emptySnapshot ⟨rfl, rfl, fun _ _ => rfl⟩ ⟨rfl, rfl, fun _ _ => rfl⟩ (by decide)
    (by decide) (by decide +kernel)
  obtain ⟨thr, hthr, -, hu⟩ := (hc 1 11 (by decide) (by decide)).2
  have hzero := congrArg (Option.map (CpuMode.sec .user)) hthr
  rw [Option.map_some, hu] at hzero
  exact absurd hzero (by decide +kernel)

end DdsBenchmark.Cputime
