import DdsBenchmark.Cputime.Runs
import DdsBenchmark.Stream.Growth

/-! CPU time over whole runs in which every read succeeds. Each figure other than `0` is the
growth of that very thread since the snapshot before, so the time attributed to a thread over
a run telescopes: it is at most what the thread consumed between its first and its last
appearance, whichever threads come, go or change places in between. -/

namespace DdsBenchmark.Cputime

open Overwrite Growth

/-- The reading of a thread in one call, if it is listed. -/
def reading (mode : CpuMode) (t : UInt64) (c : Call) : Option ℚ :=
  if t ∈ c.proc.tids then some (mode.time (c.proc.times t)) else none

/-- The seconds of CPU time that one call attributes to a thread. -/
def attributed (mode : CpuMode) (t : UInt64) (v : BcliMonitor × Call) : ℚ :=
  match ((v.2.result v.1).out.threads.take v.2.proc.tids.length).find? (·.tid = t) with
  | some thr => mode.sec thr * v.1.dt v.2.proc
  | none => 0

/-- All reads succeed, each enumeration lists distinct threads, no time of a thread decreases
and the clock does not go back. -/
structure CleanRun (calls : List Call) : Prop where
  reads : ∀ c ∈ calls, ReadsSucceed c.proc
  distinct : ∀ c ∈ calls, c.proc.tids.Nodup
  monotone : ∀ t mode, (calls.filterMap (reading mode t)).Pairwise (· ≤ ·)
  clock : calls.Pairwise fun c c' => getTimestampNs c.proc ≤ getTimestampNs c'.proc

theorem map_tid_take_threads (m : BcliMonitor) (c : Call) :
    ((c.result m).out.threads.take c.proc.tids.length).map BcliThreadStat.tid = c.proc.tids := by
  rw [Call.result, take_threads, map_tid_reports, c.proc.map_tid_current]

/-- Among distinct threads the listed one is the one its call attributes time to. -/
theorem attributed_of_listed {mode : CpuMode} {m : BcliMonitor} {c : Call} {i : ℕ} {t : UInt64}
    {thr : BcliThreadStat} (hnd : c.proc.tids.Nodup) (hi : c.proc.tids[i]? = some t)
    (hthr : (c.result m).out.threads[i]? = some thr) :
    attributed mode t (m, c) = mode.sec thr * m.dt c.proc := by
  have hmap := map_tid_take_threads m c
  have hlt := (List.getElem?_eq_some_iff.mp hi).1
  have hthr' : ((c.result m).out.threads.take c.proc.tids.length)[i]? = some thr := by
    rw [List.getElem?_take_of_lt hlt, hthr]
  have htid : thr.tid = t := by
    have hh := congrArg (·[i]?) hmap
    simp only [List.getElem?_map, hthr', hi, Option.map_some] at hh
    exact Option.some.inj hh
  have hf := find?_eq_some_of_nodup (hmap ▸ hnd) (List.mem_of_getElem? hthr')
  rw [htid] at hf
  simp only [attributed, hf]

theorem attributed_of_not_listed {mode : CpuMode} {m : BcliMonitor} {c : Call} {t : UInt64}
    (ht : t ∉ c.proc.tids) : attributed mode t (m, c) = 0 := by
  have hnone : ((c.result m).out.threads.take c.proc.tids.length).find? (·.tid = t) = none := by
    rw [List.find?_eq_none]
    intro thr hm hk
    refine ht ?_
    rw [← map_tid_take_threads m c]
    exact List.mem_map.mpr ⟨thr, hm, by simpa using hk⟩
  simp only [attributed, hnone]

/-- One call attributes no more than the growth since the reading held in the table. -/
theorem attributed_le {mode : CpuMode} {m : BcliMonitor} {c : Call} {t : UInt64} {o : Option ℚ}
    (hnd : c.proc.tids.Nodup) (hr : ReadsSucceed c.proc)
    (ho : ∀ e ∈ m.stored, e.tid = t → o = some (mode.sec e))
    (hmono : (o.toList ++ (reading mode t c).toList).Pairwise (· ≤ ·)) :
    attributed mode t (m, c) ≤ increment o (reading mode t c) := by
  by_cases ht : t ∈ c.proc.tids
  · have hi := List.getElem?_idxOf ht
    have hread : reading mode t c = some (mode.time (c.proc.times t)) := if_pos ht
    have hsec : mode.sec (c.proc.readThread t) = mode.time (c.proc.times t) := by
      rw [sec_readThread, if_pos (hr.stat t ht)]
    have hpos : 0 ≤ increment o (reading mode t c) := by
      rw [hread] at hmono ⊢
      cases o with
      | none => exact le_rfl
      | some a => simpa [increment] using hmono
    rw [attributed_of_listed hnd hi (getElem?_result_threads m c hi)]
    rcases lookup_cases m hi with hf | hf | ⟨e, he, hk, hf⟩
    · rw [hf, sec_report_none, zero_mul]
      exact hpos
    · rw [hf, sec_report_some, sub_self, zero_div, ite_self, zero_mul]
      exact hpos
    · rw [hf, sec_report_some]
      split_ifs with hdt
      · rw [div_mul_cancel₀ _ hdt.ne', ho e (List.mem_of_mem_drop he) hk, hread, hsec]
        exact le_rfl
      · rw [zero_mul]
        exact hpos
  · rw [attributed_of_not_listed ht, reading, if_neg ht]
    cases o <;> exact le_rfl

/-- The table left by a call holds the reading of that call. -/
theorem reading_of_stored_step {mode : CpuMode} {m : BcliMonitor} {c : Call} {t : UInt64}
    (hr : ReadsSucceed c.proc) :
    ∀ e ∈ (c.step m).stored, e.tid = t → reading mode t c = some (mode.sec e) := by
  intro e he hk
  rw [stored_step] at he
  subst hk
  obtain ⟨hu, hread⟩ := ProcFs.readThread_of_mem_current he
  rw [reading, if_pos hu, ← hread, sec_readThread, if_pos (hr.stat _ hu)]
  rfl

/-- From any call on, the time attributed is at most the growth of the readings. -/
theorem sum_attributed_le_growth {mode : CpuMode} {t : UInt64} {calls : List Call}
    {m : BcliMonitor} {o : Option ℚ} (hr : ∀ c ∈ calls, ReadsSucceed c.proc)
    (hnd : ∀ c ∈ calls, c.proc.tids.Nodup)
    (ho : ∀ e ∈ m.stored, e.tid = t → o = some (mode.sec e))
    (hmono : (o.toList ++ calls.filterMap (reading mode t)).Pairwise (· ≤ ·)) :
    ((Visits.visits Call.step m calls).map (attributed mode t)).sum ≤
      growth o (calls.map (reading mode t)) := by
  induction calls generalizing m o with
  | nil => exact le_rfl
  | cons c calls ih =>
    rw [List.forall_mem_cons] at hr hnd
    have hsplit : (c :: calls).filterMap (reading mode t) =
        (reading mode t c).toList ++ calls.filterMap (reading mode t) := by
      cases h : reading mode t c <;> simp [h]
    rw [hsplit, ← List.append_assoc] at hmono
    have hhead := (List.pairwise_append.mp hmono).1
    have htail : ((reading mode t c).toList ++ calls.filterMap (reading mode t)).Pairwise (· ≤ ·) :=
      hmono.sublist (List.append_sublist_append_right _ |>.mpr (List.sublist_append_right _ _))
    rw [Visits.visits_cons, List.map_cons, List.sum_cons, List.map_cons, growth]
    exact add_le_add (attributed_le hnd.1 hr.1 ho hhead)
      (ih hr.2 hnd.2 (reading_of_stored_step hr.1) htail)

/-- A figure other than `0` is the growth since the call just before. -/
theorem sec_of_preceding {calls : List Call} (h : CleanRun calls) {k i : ℕ} {m : BcliMonitor}
    {c : Call} {t : UInt64} {thr : BcliThreadStat} {mode : CpuMode}
    (hk : (monitorRun calls)[k]? = some (m, c)) (hi : c.proc.tids[i]? = some t)
    (hthr : (c.result m).out.threads[i]? = some thr) (hne : mode.sec thr ≠ 0) :
    ∃ j c', k = j + 1 ∧ calls[j]? = some c' ∧ t ∈ c'.proc.tids ∧
      mode.sec thr = (mode.time (c.proc.times t) - mode.time (c'.proc.times t)) /
        ((((getTimestampNs c.proc).toNat : ℚ) - (getTimestampNs c'.proc).toNat) / 1000000000) := by
  obtain ⟨hdt, e, he, htid, hsec⟩ := sec_of_ne_zero m c hi hthr hne
  have hc := monitorRun_call hk
  cases k with
  | zero =>
    rw [monitorRun_zero hk] at he
    simp at he
  | succ j =>
    obtain ⟨m', c', hk', rfl⟩ := monitorRun_succ hk
    have hc' := monitorRun_call hk'
    have hm' := List.mem_of_mem_drop he
    have hread : reading mode t c' = some (mode.sec e) :=
      reading_of_stored_step (h.reads c' (List.mem_of_getElem? hc')) e hm' htid
    rw [reading] at hread
    split_ifs at hread with ht
    have hle : getTimestampNs c'.proc ≤ getTimestampNs c.proc := by
      obtain ⟨hj, rfl⟩ := List.getElem?_eq_some_iff.mp hc'
      obtain ⟨hj', rfl⟩ := List.getElem?_eq_some_iff.mp hc
      exact List.pairwise_iff_getElem.mp h.clock j (j + 1) hj hj' (Nat.lt_succ_self j)
    refine ⟨j, c', rfl, hc', ht, ?_⟩
    rw [dt_step] at hdt hsec
    rw [hsec, elapsed_of_pos hdt hle, ← Option.some.inj hread, sec_readThread,
      if_pos ((h.reads c (List.mem_of_getElem? hc)).stat t (List.mem_of_getElem? hi))]

/-- In a clean run every figure other than `0` is the growth of that thread since the snapshot
just before, over the time between the two; and the time attributed to a thread is at most its
last reading less its first. -/
theorem attribution (calls : List Call) (h : CleanRun calls) :
    (∀ (k i : ℕ) (m : BcliMonitor) (c : Call) (t : UInt64) (thr : BcliThreadStat) (mode : CpuMode),
      (monitorRun calls)[k]? = some (m, c) → c.proc.tids[i]? = some t →
      (c.result m).out.threads[i]? = some thr → mode.sec thr ≠ 0 →
      ∃ j c', k = j + 1 ∧ calls[j]? = some c' ∧ t ∈ c'.proc.tids ∧
        mode.sec thr = (mode.time (c.proc.times t) - mode.time (c'.proc.times t)) /
          ((((getTimestampNs c.proc).toNat : ℚ) - (getTimestampNs c'.proc).toNat) /
            1000000000)) ∧
    ∀ (mode : CpuMode) (t : UInt64) (first last : ℚ),
      (calls.filterMap (reading mode t)).head? = some first →
      (calls.filterMap (reading mode t)).getLast? = some last →
      ((monitorRun calls).map (attributed mode t)).sum ≤ last - first := by
  refine ⟨fun k i m c t thr mode hk hi hthr hne => sec_of_preceding h hk hi hthr hne,
    fun mode t first last hfirst hlast => ?_⟩
  have hseen : (calls.map (reading mode t)).reduceOption = calls.filterMap (reading mode t) :=
    List.filterMap_map
  have hgrowth := growth_none_le (hseen ▸ h.monotone t mode) (hseen ▸ hfirst)
  rw [lastSeen, hseen, List.getLastD_eq_getLast?, hlast, Option.getD_some] at hgrowth
  refine (sum_attributed_le_growth h.reads h.distinct ?_ ?_).trans hgrowth
  · simp
  · exact h.monotone t mode

/-- Three calls within three seconds, the threads changing places and one of them leaving. -/
def threeCalls : List Call :=
  [⟨readingsAt 5 ["11", "12"] "100 50", emptySnapshot⟩,
    ⟨readingsAt 6 ["12", "11"] "150 60", emptySnapshot⟩,
    ⟨readingsAt 8 ["11"] "200 60", emptySnapshot⟩]

theorem threeCalls_times (t : UInt64) :
    threeCalls.map (fun c => c.proc.times t) = [(1, 1 / 2), (3 / 2, 3 / 5), (2, 3 / 5)] := by
  simp only [threeCalls, List.map_cons, List.map_nil, times_readingsAt]
  decide +kernel

theorem threeCalls_clean : CleanRun threeCalls where
  reads := by
    simp only [threeCalls, List.forall_mem_cons, List.not_mem_nil, false_implies, implies_true,
      and_true]
    exact ⟨⟨rfl, rfl, fun _ _ => rfl⟩, ⟨rfl, rfl, fun _ _ => rfl⟩, ⟨rfl, rfl, fun _ _ => rfl⟩⟩
  distinct := by decide
  monotone t mode := by
    have htimes : (threeCalls.map fun c => c.proc.times t).Pairwise
        fun a b => mode.time a ≤ mode.time b := by
      rw [threeCalls_times]
      cases mode <;> decide +kernel
    refine (List.pairwise_map.mp htimes).filterMap _ fun c c' hle a ha b hb => ?_
    rw [reading] at ha hb
    split_ifs at ha hb
    rwa [← Option.some.inj ha, ← Option.some.inj hb]
  clock := by decide

/-- Thread `11` consumed one second between its first and its last reading. -/
theorem threeCalls_attribution :
    ((monitorRun threeCalls).map (attributed .user 11)).sum ≤ 2 - 1 :=
  (attribution threeCalls threeCalls_clean).2 .user 11 1 2 (by decide +kernel) (by decide +kernel)

end DdsBenchmark.Cputime
