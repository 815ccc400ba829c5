import DdsBenchmark.Perf.Report

/-! What the performance tool prints about its subscriber. In every interleaving of samples and
of the loops that print, each line counts the samples behind the last second and behind the tenth
second before it, and each latency line describes the latencies that its publisher had from one
taking of its statistics to the next, none twice and none left out. The handles and the size of
such a line are read when the lock is gone, the size through a pointer into an array that the first
sample of a publisher may have moved. -/

namespace DdsBenchmark.Perf

open Upsert Logged

variable {nkeys : UInt32}

/-! ### What is told of one publisher -/

/-- The samples of `p`, in the order of the log. -/
def samplesBy (p : UInt64) (log : List ReportEvent) : List Arrival :=
  log.filterMap fun e => match e with
    | .sample q a => if q = p then some a else none
    | _ => none

/-- The latencies of `p` since its statistics were taken last, read from the end of the log. -/
def latenciesSince (p : UInt64) : List ReportEvent → List Int64
  | [] => []
  | .sample q a :: log =>
    if q = p then latenciesSince p log ++ [a.tdelta] else latenciesSince p log
  | .taken q :: log => if q = p then [] else latenciesSince p log
  | .substat _ _ :: log => latenciesSince p log
  | .sublat _ :: log => latenciesSince p log

/-- The publisher whose statistics were taken last, and what was told before that, read from the
end of the log. -/
def lastTaken : List ReportEvent → Option (UInt64 × List ReportEvent)
  | [] => none
  | .taken p :: log => some (p, log)
  | .sample _ _ :: log => lastTaken log
  | .substat _ _ :: log => lastTaken log
  | .sublat _ :: log => lastTaken log

/-- Whether some publisher has sent its first sample since then. -/
def newSinceTaken : List ReportEvent → Bool
  | [] => false
  | .taken _ :: _ => false
  | .sample p _ :: log => newSinceTaken log || (samplesBy p log).isEmpty
  | .substat _ _ :: log => newSinceTaken log
  | .sublat _ :: log => newSinceTaken log

theorem samplesBy_concat (p : UInt64) (log : List ReportEvent) (e : ReportEvent) :
    samplesBy p (log ++ [e]) = samplesBy p log ++ samplesBy p [e] :=
  List.filterMap_append ..

theorem samplesBy_sample_self (p : UInt64) (a : Arrival) (log : List ReportEvent) :
    samplesBy p (log ++ [.sample p a]) = samplesBy p log ++ [a] := by
  rw [samplesBy_concat]
  simp [samplesBy]

theorem samplesBy_sample_of_ne {p q : UInt64} (h : q ≠ p) (a : Arrival) (log : List ReportEvent) :
    samplesBy p (log ++ [.sample q a]) = samplesBy p log := by
  rw [samplesBy_concat]
  simp [samplesBy, h]

theorem isEmpty_samplesBy_reverse (p : UInt64) (log : List ReportEvent) :
    (samplesBy p log.reverse).isEmpty = (samplesBy p log).isEmpty := by
  rw [samplesBy, List.filterMap_reverse, List.isEmpty_reverse]
  rfl

/-! ### The entry of a publisher -/

/-- The entry that is left by samples, with latencies since its statistics were taken last. -/
structure EntryOf (sublatency : Bool) (x : EseqEntry nkeys) (as : List Arrival)
    (ts : List Int64) : Prop where
  pph : as.head?.map Arrival.pphandle = some x.pph
  lastSize : as.getLast?.map Arrival.size = some x.stats.lastSize
  info : sublatency = true → ts.length < 2 ^ 32 → x.stats.info.Holds ts

/-- A publisher has an entry when it has sent a sample. -/
def InfoOf (sublatency : Bool) (o : Option (EseqEntry nkeys)) (as : List Arrival)
    (ts : List Int64) : Prop :=
  match o with
  | none => as = [] ∧ ts = []
  | some x => EntryOf sublatency x as ts

/-- Every publisher has one entry, made of its own samples. -/
structure Timed (sublatency : Bool) (ea : EseqAdmin nkeys) (log : List ReportEvent) : Prop where
  nodup : (ea.map EseqEntry.ph).Nodup
  info : ∀ p, InfoOf sublatency (entry EseqEntry.ph p ea) (samplesBy p log)
    (latenciesSince p log.reverse)

theorem timed_init (sublatency : Bool) : Timed sublatency (initEseqAdmin nkeys) [] :=
  ⟨List.nodup_nil, fun _ => ⟨rfl, rfl⟩⟩

theorem EntryOf.received {sublatency : Bool} {x : EseqEntry nkeys} {as : List Arrival}
    {ts : List Int64} (h : EntryOf sublatency x as ts) (a : Arrival) (k : Fin nkeys.toNat) :
    EntryOf sublatency (x.received sublatency a k) (as ++ [a]) (ts ++ [a.tdelta]) where
  pph := by
    have hpph := h.pph
    cases as with
    | nil => simp at hpph
    | cons b bs => exact hpph
  lastSize := by
    rw [List.getLast?_concat]
    rfl
  info hs hlen := by
    subst hs
    rw [List.length_append, List.length_singleton] at hlen
    exact (h.info rfl (by omega)).update (by omega) a.tdelta

theorem entryOf_first (sublatency : Bool) (p : UInt64) (a : Arrival) :
    EntryOf sublatency (EseqEntry.first sublatency p a : EseqEntry nkeys) [a] [a.tdelta] where
  pph := rfl
  lastSize := rfl
  info hs _ := by
    subst hs
    exact (Latencystat.holds_init .zeroed).update (by simp) a.tdelta

section Steps
variable {sublatency : Bool} {ea : EseqAdmin nkeys} {log : List ReportEvent}
  (h : Timed sublatency ea log)
include h

theorem Timed.sample {p : UInt64} {a : Arrival} {r : EseqAdmin nkeys × Bool}
    (hr : checkEseq sublatency ea p a = some r) :
    Timed sublatency r.1 (log ++ [.sample p a]) := by
  obtain ⟨k, hr⟩ := checkEseq_eq_some hr
  have hc : ∀ x : EseqEntry nkeys, x.ph = p → (x.received sublatency a k).ph = p := fun _ hx => hx
  have hn : (EseqEntry.first sublatency p a : EseqEntry nkeys).ph = p := rfl
  rw [hr]
  refine ⟨nodup_upsert hc hn h.nodup, fun q => ?_⟩
  have hq := h.info q
  rw [List.reverse_append]
  by_cases hpq : q = p
  · subst hpq
    have hsince : latenciesSince q ([ReportEvent.sample q a].reverse ++ log.reverse) =
        latenciesSince q log.reverse ++ [a.tdelta] := if_pos rfl
    rw [entry_upsert_self hc hn, hsince, samplesBy_sample_self]
    cases he : entry EseqEntry.ph q ea with
    | none =>
      rw [he] at hq
      rw [hq.1, hq.2]
      exact entryOf_first sublatency q a
    | some x =>
      rw [he] at hq
      exact hq.received a k
  · have hsince : latenciesSince q ([ReportEvent.sample p a].reverse ++ log.reverse) =
        latenciesSince q log.reverse := if_neg (Ne.symm hpq)
    rwa [entry_upsert_of_ne hc hn hpq, hsince, samplesBy_sample_of_ne (Ne.symm hpq)]

theorem Timed.substat (l : SubLine) (printed : Bool) :
    Timed sublatency (substat ea).2 (log ++ [.substat l printed]) := by
  refine ⟨?_, fun p => ?_⟩
  · have hph : (Perf.substat ea).2.map EseqEntry.ph = ea.map EseqEntry.ph := by
      rw [Perf.substat, List.map_map]
      rfl
    rw [hph]
    exact h.nodup
  · have hp := h.info p
    have hsame : samplesBy p (log ++ [.substat l printed]) = samplesBy p log :=
      (samplesBy_concat ..).trans (List.append_nil _)
    rw [hsame, List.reverse_append, Perf.substat, entry_map (f := EseqEntry.copied) fun _ => rfl]
    cases he : entry EseqEntry.ph p ea with
    | none =>
      rw [he] at hp
      exact hp
    | some x =>
      rw [he] at hp
      exact ⟨hp.pph, hp.lastSize, hp.info⟩

/-- At a place the statistics are taken out and begin anew. -/
theorem Timed.take {i : ℕ} {y : EseqEntry nkeys} (hi : ea[i]? = some y) :
    Timed sublatency (ea.modify i .afresh) (log ++ [.taken y.ph]) := by
  refine ⟨?_, fun p => ?_⟩
  · rw [map_key_modify (f := EseqEntry.afresh) fun _ => rfl]
    exact h.nodup
  · have hp := h.info p
    have hsame : samplesBy p (log ++ [.taken y.ph]) = samplesBy p log :=
      (samplesBy_concat ..).trans (List.append_nil _)
    rw [entry_modify (f := EseqEntry.afresh) (fun _ => rfl) h.nodup, hi, hsame, List.reverse_append]
    by_cases hy : y.ph = p
    · have hsince : latenciesSince p ([ReportEvent.taken y.ph].reverse ++ log.reverse) = [] :=
        if_pos hy
      rw [hsince, Option.map_some, if_pos (congrArg some hy)]
      cases he : entry EseqEntry.ph p ea with
      | none =>
        rw [he] at hp
        exact ⟨hp.1, rfl⟩
      | some x =>
        rw [he] at hp
        exact ⟨hp.pph, hp.lastSize, fun _ _ => Latencystat.holds_reset _⟩
    · have hsince : latenciesSince p ([ReportEvent.taken y.ph].reverse ++ log.reverse) =
          latenciesSince p log.reverse := if_neg hy
      rw [hsince, Option.map_some, if_neg (by simpa using hy), Option.map_id]
      exact hp

theorem Timed.sublat (l : SubLatency) : Timed sublatency ea (log ++ [.sublat l]) := by
  refine ⟨h.nodup, fun p => ?_⟩
  have hsame : samplesBy p (log ++ [.sublat l]) = samplesBy p log :=
    (samplesBy_concat ..).trans (List.append_nil _)
  rw [hsame, List.reverse_append]
  exact h.info p

theorem Timed.entryOf {x : EseqEntry nkeys} (hx : x ∈ ea) :
    EntryOf sublatency x (samplesBy x.ph log) (latenciesSince x.ph log.reverse) := by
  have hinfo := h.info x.ph
  rwa [entry_of_mem h.nodup hx] at hinfo

/-- A publisher without samples has no entry. -/
theorem Timed.mem_iff (p : UInt64) :
    p ∈ ea.map EseqEntry.ph ↔ (samplesBy p log).isEmpty = false := by
  have hinfo := h.info p
  constructor
  · intro hp
    obtain ⟨x, hx, rfl⟩ := List.mem_map.mp hp
    have hpph := (h.entryOf hx).pph
    cases hs : samplesBy x.ph log with
    | nil => simp [hs] at hpph
    | cons a as => rfl
  · intro hs
    cases he : entry EseqEntry.ph p ea with
    | none =>
      rw [he] at hinfo
      simp [hinfo.1] at hs
    | some x => exact List.mem_map.mpr ⟨x, mem_of_entry he, key_of_entry he⟩

end Steps

/-! ### The statistics taken out -/

/-- The copy holds the latencies from one taking to the next, of the publisher at its place; the
array may have moved since when a publisher was new. -/
structure CopyOf (ea : EseqAdmin nkeys) (log : List ReportEvent) (t : Taken) : Prop where
  moved : t.moved = newSinceTaken log.reverse
  copied : ∃ p before, lastTaken log.reverse = some (p, before) ∧
    (ea.map EseqEntry.ph)[t.place]? = some p ∧
    ((latenciesSince p before).length < 2 ^ 32 → t.y.Holds (latenciesSince p before))

theorem CopyOf.sample {sublatency : Bool} {ea : EseqAdmin nkeys} {log : List ReportEvent}
    {t : Taken} (h : CopyOf ea log t) (ht : Timed sublatency ea log) {p : UInt64} {a : Arrival}
    {r : EseqAdmin nkeys × Bool} (hr : checkEseq sublatency ea p a = some r) :
    CopyOf r.1 (log ++ [.sample p a])
      { t with moved := t.moved || ea.length < r.1.length } := by
  obtain ⟨k, hr⟩ := checkEseq_eq_some hr
  have hc : ∀ x : EseqEntry nkeys, x.ph = p → (x.received sublatency a k).ph = p := fun _ hx => hx
  have hn : (EseqEntry.first sublatency p a : EseqEntry nkeys).ph = p := rfl
  obtain ⟨hmoved, q, before, htaken, hplace, hholds⟩ := h
  refine ⟨?_, q, before, by rw [List.reverse_append]; exact htaken, ?_, hholds⟩
  · have hlen := congrArg List.length (map_key_upsert hc hn ea)
    rw [List.length_map, ← hr] at hlen
    have hgrown : decide (ea.length < r.1.length) = (samplesBy p log).isEmpty := by
      by_cases hp : p ∈ ea.map EseqEntry.ph
      · rw [(ht.mem_iff p).mp hp, hlen, if_pos hp, List.length_map]
        simp
      · have hempty : (samplesBy p log).isEmpty = true := by
          rw [← Bool.not_eq_false]
          exact mt (ht.mem_iff p).mpr hp
        rw [hempty, hlen, if_neg hp]
        simp
    rw [List.reverse_append]
    show (t.moved || decide (ea.length < r.1.length)) =
      (newSinceTaken log.reverse || (samplesBy p log.reverse).isEmpty)
    rw [hmoved, hgrown, isEmpty_samplesBy_reverse]
  · rw [hr]
    exact getElem?_key_upsert hc hn hplace

/-! ### The lines of a run -/

/-- What is printed of latencies. -/
def Latencies (r : Option Latencystat.Report) (ts : List Int64) : Prop :=
  ts.length < 2 ^ 32 → Latencystat.NoOverflow (ts.map Int64.toInt) →
    if ts = [] then r = none
      else ∃ r', r = some r' ∧ Latencystat.Describes r' (ts.map Int64.toInt)

/-- The line is about the publisher whose statistics were taken last and the latencies that were
new then; participant and size are those of its first and its last sample. -/
structure Describes (before : List ReportEvent) (l : SubLatency) : Prop where
  latencies : ∃ rest, lastTaken before.reverse = some (l.pubhandle, rest) ∧
    Latencies l.report (latenciesSince l.pubhandle rest)
  pphandle : (samplesBy l.pubhandle before).head?.map Arrival.pphandle = some l.pphandle
  size : (samplesBy l.pubhandle before).getLast?.map Arrival.size = some l.size

/-- What is printed is right about what was told before. -/
def Says (opts : ReportOptions) (before : List ReportEvent) : ReportEvent → Prop
  | .sample _ _ => True
  | .substat l printed =>
    Accurate before l ∧ (printed = true ↔ 0 < l.nrecv ∨ opts.substatEverySecond = true)
  | .taken _ => True
  | .sublat l => Describes before l

/-- What a run keeps. -/
structure Reporting (opts : ReportOptions) (s : Printer nkeys) (log : List ReportEvent) :
    Prop where
  nrecv : Windowed (·.nrecv) (fun _ => 1) s.ea log
  nrecvBytes : Windowed (·.nrecvBytes) (·.size.toNat) s.ea log
  nlost : LostLines s.ea log
  timed : Timed opts.sublatency s.ea log
  copy : ∀ t, s.taken = some t → CopyOf s.ea log t
  told : Told (Says opts) log

theorem reporting_init (opts : ReportOptions) : Reporting opts (Printer.init nkeys) [] :=
  ⟨windowed_init, windowed_init,
    fun i => by simp [Printer.init, initEseqAdmin, sumOf, linesOf, Snapshots.ago],
    timed_init _, fun t ht => by simp [Printer.init] at ht, told_nil _⟩

section Step
variable {opts : ReportOptions} {s : Printer nkeys} {log : List ReportEvent}

theorem Timed.copyOf (h : Timed opts.sublatency s.ea log) (hs : opts.sublatency = true) {i : ℕ}
    {x : EseqEntry nkeys} (hi : s.ea[i]? = some x) :
    CopyOf (s.ea.modify i .afresh) (log ++ [.taken x.ph]) ⟨i, x.stats.info, false⟩ := by
  have hx := h.entryOf (List.mem_of_getElem? hi)
  constructor
  · rw [List.reverse_append]
    rfl
  · refine ⟨x.ph, log.reverse, by rw [List.reverse_append]; rfl, ?_, hx.info hs⟩
    rw [map_key_modify (f := EseqEntry.afresh) fun _ => rfl, List.getElem?_map, hi]
    rfl

theorem Reporting.describes (h : Reporting opts s log) {t : Taken} (ht : s.taken = some t)
    {x : EseqEntry nkeys} (hx : s.ea[t.place]? = some x) :
    Describes log ⟨x.ph, x.pph, x.stats.lastSize, t.y.print⟩ := by
  obtain ⟨-, p, before, htaken, hplace, hholds⟩ := h.copy t ht
  obtain rfl : x.ph = p := by simpa [hx] using hplace
  have hentry := h.timed.entryOf (List.mem_of_getElem? hx)
  exact ⟨⟨before, htaken, fun hlen hsum => (hholds hlen).print hlen hsum⟩, hentry.pph,
    hentry.lastSize⟩

theorem Reporting.step {op : ReportOp} {r : Printer nkeys × Option ReportEvent}
    (h : Reporting opts s log) (hr : reportStep opts s op = some r) :
    Reporting opts r.1 (log ++ r.2.toList) := by
  refine ⟨windowed_step weighs_nrecv h.nrecv hr, windowed_step weighs_nrecvBytes h.nrecvBytes hr,
    lostLines_step h.nlost hr, ?_, ?_, h.told.append ?_⟩
  all_goals
    obtain ⟨p, a, r', hr', hea, ht, he⟩ | ⟨-, hs, he⟩ | ⟨i, x, -, hx, hlat, hs, he⟩ |
      ⟨t, x, ht, -, hx, hs, he⟩ := reportStep_cases hr
  · rw [hea, he]
    exact h.timed.sample hr'
  · rw [hs, he]
    exact h.timed.substat _ _
  · rw [hs, he]
    exact h.timed.take hx
  · rw [hs, he]
    exact h.timed.sublat _
  · intro t' ht'
    rw [ht] at ht'
    obtain ⟨t, hst, rfl⟩ := Option.map_eq_some_iff.mp ht'
    rw [hea, he]
    exact (h.copy t hst).sample h.timed hr'
  · intro t' ht'
    simp [hs] at ht'
  · intro t' ht'
    rw [hs] at ht' ⊢
    obtain rfl := Option.some.inj ht'
    rw [he]
    exact h.timed.copyOf hlat hx
  · intro t' ht'
    simp [hs] at ht'
  all_goals
    intro e hmem
    rw [he] at hmem
    obtain rfl := Option.some.inj hmem
  · trivial
  · exact ⟨accurate_substat h.nrecv h.nrecvBytes h.nlost, by simp⟩
  · trivial
  · exact h.describes ht hx

theorem reporting {ops : List ReportOp} {r : Printer nkeys × List ReportEvent}
    (hrun : report opts ops = some r) : Reporting opts r.1 r.2 :=
  run_invariant (I := Reporting opts) (fun _ _ _ _ h hr => h.step hr) (reporting_init opts) hrun

end Step

/-- Two publishers, two seconds. -/
def twoSeconds : List ReportOp :=
  [.sample 7 ⟨0, 0, 12, 1500, 1⟩, .sample 7 ⟨1, 0, 16, 1700, 1⟩, .substat,
    .sample 9 ⟨4, 0, 20, 900, 2⟩, .sample 7 ⟨3, 0, 12, 1100, 1⟩, .substat]

/-- Two latency lines of one publisher, a sample coming in while the second one is printed. -/
def twoLatencies : List ReportOp :=
  [.sample 7 ⟨0, 0, 12, 1500, 1⟩, .sample 9 ⟨4, 0, 20, 900, 2⟩, .take 0, .sublat,
    .sample 7 ⟨1, 0, 16, 1700, 1⟩, .sample 7 ⟨2, 0, 16, 1100, 1⟩, .take 0,
    .sample 7 ⟨3, 0, 24, 1900, 1⟩, .sublat]

/-- The printer goes back to an array that may have moved exactly when some publisher has sent its
first sample since the statistics were taken out. -/
theorem reads_moved_iff {opts : ReportOptions} {ops : List ReportOp} {s : Printer nkeys}
    {log : List ReportEvent} (hrun : report opts ops = some (s, log)) {t : Taken}
    (ht : s.taken = some t) :
    reportStep opts s .sublat = none ↔ newSinceTaken log.reverse = true := by
  obtain ⟨hmoved, p, -, -, hplace, -⟩ := (reporting hrun).copy t ht
  obtain ⟨x, hx, -⟩ := Option.map_eq_some_iff.mp ((List.getElem?_map ..).symm.trans hplace)
  rw [← hmoved]
  cases hm : t.moved <;> simp [reportStep, ht, hm, hx]

/-- A publisher comes in while the latencies of another are printed. -/
def cameIn : List ReportOp :=
  [.sample 7 ⟨0, 0, 12, 1500, 1⟩, .take 0, .sample 9 ⟨0, 0, 12, 700, 2⟩]

theorem reads_moved_two_publishers : ∃ (s : Printer 1) (log : List ReportEvent) (t : Taken),
    report ⟨true, false⟩ cameIn = some (s, log) ∧ s.taken = some t ∧
      newSinceTaken log.reverse = true ∧
      (reportStep ⟨true, false⟩ s .sublat = none ↔ newSinceTaken log.reverse = true) :=
  ⟨_, _, _, rfl, rfl, rfl, @reads_moved_iff 1 ⟨true, false⟩ cameIn _ _ rfl _ rfl⟩

end DdsBenchmark.Perf
