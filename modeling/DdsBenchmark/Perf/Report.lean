import DdsBenchmark.Concurrency.Logged
import DdsBenchmark.Perf.Eseq
import DdsBenchmark.Table.Snapshots

/-! The subscriber's lines of the performance tool. Every second the totals of all publishers are
taken with their growth since the second before and the second ten before it, both read off a ring
of copies that each publisher has, and printed unless nothing has come. Samples and publishers come
in between as they please: the growth is the difference of the totals of two seconds. The latencies
are printed without the lock, each publisher's from a copy made under it. -/

namespace DdsBenchmark.Perf

open Upsert Snapshots Logged

variable {nkeys : UInt32}

/-- The figures of one line. Rates are these over the time and not rendered here. -/
structure SubLine where
  lastSize : UInt32
  totNrecv : UInt64
  totNlost : UInt64
  nrecv : UInt64
  nlost : UInt64
  nrecvBytes : UInt64
  nrecv10s : UInt64
  nrecv10sBytes : UInt64
  deriving DecidableEq

def SubLine.zero : SubLine := ⟨0, 0, 0, 0, 0, 0, 0, 0⟩

/-- The number of copies. -/
instance neZeroTen : NeZero 10 := ⟨by decide⟩

namespace EseqStat

/-- The index of the latest copy. -/
def refidx1s (x : EseqStat) : Fin 10 :=
  Fin.ofNat 10 (if x.refidx.val = 0 then 9 else x.refidx.val - 1)

/-- The totals are copied and the index moves on. -/
def copied (x : EseqStat) : EseqStat :=
  { x with
    ref := Function.update x.ref x.refidx x.toEseqTotals
    refidx := Fin.ofNat 10 (if x.refidx.val + 1 = 10 then 0 else x.refidx.val + 1) }

/-- What a publisher adds to the line. -/
def addTo (line : SubLine) (x : EseqStat) : SubLine where
  totNrecv := line.totNrecv + x.nrecv
  totNlost := line.totNlost + x.nlost
  nrecv := line.nrecv + (x.nrecv - (x.ref x.refidx1s).nrecv)
  nlost := line.nlost + (x.nlost - (x.ref x.refidx1s).nlost)
  nrecvBytes := line.nrecvBytes + (x.nrecvBytes - (x.ref x.refidx1s).nrecvBytes)
  nrecv10s := line.nrecv10s + (x.nrecv - (x.ref x.refidx).nrecv)
  nrecv10sBytes := line.nrecv10sBytes + (x.nrecvBytes - (x.ref x.refidx).nrecvBytes)
  lastSize := x.lastSize

end EseqStat

def EseqEntry.copied (x : EseqEntry nkeys) : EseqEntry nkeys := { x with stats := x.stats.copied }

/-- The latencies begin anew. -/
def EseqEntry.afresh (x : EseqEntry nkeys) : EseqEntry nkeys :=
  { x with stats := { x.stats with info := x.stats.info.reset } }

/-- The loop of `print_stats` over the publishers: the line and what becomes of the table. -/
def substat (ea : EseqAdmin nkeys) : SubLine × EseqAdmin nkeys :=
  (ea.foldl (fun line x => x.stats.addTo line) .zero, ea.map EseqEntry.copied)

/-! ### Runs -/

structure ReportOptions where
  sublatency : Bool
  substatEverySecond : Bool

/-- The statistics taken out of a place of the table, to be printed without the lock. -/
structure Taken where
  place : ℕ
  y : Latencystat
  /-- A publisher has been added since, and the array of the statistics may have moved. -/
  moved : Bool

/-- The table, and how far the loop over the latencies has come. -/
structure Printer (nkeys : UInt32) where
  ea : EseqAdmin nkeys
  taken : Option Taken

def Printer.init (nkeys : UInt32) : Printer nkeys := ⟨initEseqAdmin nkeys, none⟩

/-- A line about latencies; nothing is printed without a report. -/
structure SubLatency where
  pubhandle : UInt64
  pphandle : UInt64
  size : UInt32
  report : Option Latencystat.Report

/-- What is done in one hold of the lock of the table, and the printing between two of them. -/
inductive ReportOp where
  | sample (pubhandle : UInt64) (a : Arrival)
  | substat
  | take (i : ℕ)
  | sublat

/-- What can be told of it afterwards. -/
inductive ReportEvent where
  | sample (pubhandle : UInt64) (a : Arrival)
  | substat (l : SubLine) (printed : Bool)
  | taken (pubhandle : UInt64)
  | sublat (l : SubLatency)

/-- One operation, after which the process goes on unless it ends. Latencies are gone through only
when they are kept, one place after the other. The handles, and through `x` the last size, are read
behind the lock: once the array that `x` points into may have moved this is not defined, and the
run ends. -/
def reportStep (opts : ReportOptions) (s : Printer nkeys) :
    ReportOp → Option (Printer nkeys × Option ReportEvent)
  | .sample p a => (checkEseq opts.sublatency s.ea p a).map fun r =>
    (⟨r.1, s.taken.map fun t => { t with moved := t.moved || s.ea.length < r.1.length }⟩,
      some (.sample p a))
  | .substat =>
    match s.taken with
    | none =>
      let (l, ea) := substat s.ea
      some (⟨ea, none⟩, some (.substat l (l.nrecv > 0 || opts.substatEverySecond)))
    | some _ => none
  | .take i =>
    match s.taken, s.ea[i]? with
    | none, some x =>
      if opts.sublatency then
        some (⟨s.ea.modify i .afresh, some ⟨i, x.stats.info, false⟩⟩, some (.taken x.ph))
      else none
    | _, _ => none
  | .sublat =>
    match s.taken with
    | none => none
    | some t =>
      if t.moved then none
      else s.ea[t.place]?.map fun x =>
        (⟨s.ea, none⟩, some (.sublat ⟨x.ph, x.pph, x.stats.lastSize, t.y.print⟩))

/-- The operations one after the other, from the empty table on. -/
def report (opts : ReportOptions) (ops : List ReportOp) :
    Option (Printer nkeys × List ReportEvent) :=
  Logged.run (reportStep opts) (.init nkeys) [] ops

/-! ### The ring of a publisher -/

/-- The copies of a publisher's totals. -/
def EseqStat.ring (x : EseqStat) : Ring 10 EseqTotals := ⟨x.ref, x.refidx⟩

theorem EseqStat.refidx1s_eq (x : EseqStat) : x.refidx1s = x.refidx - 1 := by
  rw [refidx1s]
  generalize x.refidx = i
  revert i
  decide

theorem EseqStat.ring_copied (x : EseqStat) : x.copied.ring = x.ring.push x.toEseqTotals := by
  have hidx : ∀ i : Fin 10, Fin.ofNat 10 (if i.val + 1 = 10 then 0 else i.val + 1) = i + 1 := by
    decide
  simp only [ring, copied, Ring.push, hidx]

theorem EseqStat.ref_refidx1s (x : EseqStat) : x.ref x.refidx1s = x.ring.back 0 := by
  rw [refidx1s_eq, Ring.back, sub_zero]
  rfl

theorem EseqStat.ref_refidx (x : EseqStat) : x.ref x.refidx = x.ring.back 9 :=
  x.ring.cells_idx

/-! ### Sums over the publishers -/

/-- The sum of a figure over the table. -/
def sumOf (f : EseqStat → UInt64) (ea : EseqAdmin nkeys) : UInt64 :=
  ea.foldr (fun x sum => f x.stats + sum) 0

theorem sumOf_cons (f : EseqStat → UInt64) (x : EseqEntry nkeys) (ea : EseqAdmin nkeys) :
    sumOf f (x :: ea) = f x.stats + sumOf f ea := rfl

theorem sumOf_sub (f g : EseqStat → UInt64) (ea : EseqAdmin nkeys) :
    sumOf (fun x => f x - g x) ea = sumOf f ea - sumOf g ea := by
  induction ea with
  | nil => exact (UInt64.sub_zero 0).symm
  | cons x ea ih =>
    simp only [sumOf_cons, ih]
    grind

/-- The line is made of sums over the table. -/
theorem substat_line (ea : EseqAdmin nkeys) :
    let l := (substat ea).1
    l.totNrecv = sumOf (·.nrecv) ea ∧ l.totNlost = sumOf (·.nlost) ea ∧
      l.nrecv = sumOf (·.nrecv) ea - sumOf (fun x => (x.ring.back 0).nrecv) ea ∧
      l.nlost = sumOf (·.nlost) ea - sumOf (fun x => (x.ring.back 0).nlost) ea ∧
      l.nrecvBytes = sumOf (·.nrecvBytes) ea - sumOf (fun x => (x.ring.back 0).nrecvBytes) ea ∧
      l.nrecv10s = sumOf (·.nrecv) ea - sumOf (fun x => (x.ring.back 9).nrecv) ea ∧
      l.nrecv10sBytes =
        sumOf (·.nrecvBytes) ea - sumOf (fun x => (x.ring.back 9).nrecvBytes) ea := by
  have hfold : ∀ line : SubLine, ∀ f : SubLine → UInt64, ∀ g : EseqStat → UInt64,
      (∀ l x, f (EseqStat.addTo l x) = f l + g x) →
      f (ea.foldl (fun line x => x.stats.addTo line) line) = f line + sumOf g ea := by
    intro line f g hfg
    induction ea generalizing line with
    | nil => exact (UInt64.add_zero _).symm
    | cons x ea ih => rw [List.foldl_cons, ih, hfg, sumOf_cons, UInt64.add_assoc]
  simp only [← EseqStat.ref_refidx1s, ← EseqStat.ref_refidx]
  simp only [← sumOf_sub]
  refine ⟨?_, ?_, ?_, ?_, ?_, ?_, ?_⟩
  · exact (hfold .zero (·.totNrecv) _ fun _ _ => rfl).trans (UInt64.zero_add _)
  · exact (hfold .zero (·.totNlost) _ fun _ _ => rfl).trans (UInt64.zero_add _)
  · exact (hfold .zero (·.nrecv) _ fun _ _ => rfl).trans (UInt64.zero_add _)
  · exact (hfold .zero (·.nlost) _ fun _ _ => rfl).trans (UInt64.zero_add _)
  · exact (hfold .zero (·.nrecvBytes) _ fun _ _ => rfl).trans (UInt64.zero_add _)
  · exact (hfold .zero (·.nrecv10s) _ fun _ _ => rfl).trans (UInt64.zero_add _)
  · exact (hfold .zero (·.nrecv10sBytes) _ fun _ _ => rfl).trans (UInt64.zero_add _)

/-! ### What the operations do to the sums -/

theorem checkEseq_eq_some {sublatency : Bool} {ea : EseqAdmin nkeys} {p : UInt64} {a : Arrival}
    {r : EseqAdmin nkeys × Bool} (h : checkEseq sublatency ea p a = some r) :
    ∃ k, r.1 = upsert EseqEntry.ph p (.received sublatency a k) (.first sublatency p a) ea := by
  unfold checkEseq at h
  split_ifs at h with hk
  exact ⟨_, congrArg Prod.fst (Option.some.inj h).symm⟩

/-- A figure to which every sample adds the same, also to a publisher it is the first of. -/
theorem sumOf_upsert {f : EseqStat → UInt64} {d : UInt64} {p : UInt64}
    {change : EseqEntry nkeys → EseqEntry nkeys} {new : EseqEntry nkeys}
    (hc : ∀ x, f (change x).stats = f x.stats + d) (hn : f new.stats = d) (ea : EseqAdmin nkeys) :
    sumOf f (upsert EseqEntry.ph p change new ea) = sumOf f ea + d := by
  induction ea with
  | nil => rw [upsert, sumOf_cons, hn, UInt64.add_comm]
  | cons x ea ih =>
    rw [upsert]
    split_ifs
    · rw [sumOf_cons, sumOf_cons, hc]
      grind
    · rw [sumOf_cons, sumOf_cons, ih, UInt64.add_assoc]

theorem sumOf_map {f g : EseqStat → UInt64} {h : EseqEntry nkeys → EseqEntry nkeys}
    (hf : ∀ x, f (h x).stats = g x.stats) (ea : EseqAdmin nkeys) :
    sumOf f (ea.map h) = sumOf g ea := by
  induction ea with
  | nil => rfl
  | cons x ea ih => rw [List.map_cons, sumOf_cons, sumOf_cons, hf, ih]

theorem sumOf_modify {f : EseqStat → UInt64} {h : EseqEntry nkeys → EseqEntry nkeys}
    (hf : ∀ x, f (h x).stats = f x.stats) (i : ℕ) (ea : EseqAdmin nkeys) :
    sumOf f (ea.modify i h) = sumOf f ea := by
  induction ea generalizing i with
  | nil => simp
  | cons x ea ih =>
    cases i with
    | zero => rw [List.modify_zero_cons, sumOf_cons, sumOf_cons, hf]
    | succ i => rw [List.modify_succ_cons, sumOf_cons, sumOf_cons, ih]

section Copies
variable (f : EseqTotals → UInt64)

theorem sumOf_back_zero (ea : EseqAdmin nkeys) :
    sumOf (fun x => f (x.ring.back 0)) (substat ea).2 = sumOf (fun x => f x.toEseqTotals) ea :=
  sumOf_map (fun x => by rw [EseqEntry.copied, EseqStat.ring_copied, Ring.back_push_zero]) ea

theorem sumOf_back_succ {i : Fin 10} (hi : i + 1 ≠ 0) (ea : EseqAdmin nkeys) :
    sumOf (fun x => f (x.ring.back (i + 1))) (substat ea).2 =
      sumOf (fun x => f (x.ring.back i)) ea :=
  sumOf_map (fun x => by rw [EseqEntry.copied, EseqStat.ring_copied, Ring.back_push_succ _ _ hi]) ea

/-- The line leaves the totals alone. -/
theorem sumOf_substat (ea : EseqAdmin nkeys) :
    sumOf (fun x => f x.toEseqTotals) (substat ea).2 = sumOf (fun x => f x.toEseqTotals) ea := by
  unfold substat
  apply sumOf_map
  intro x
  rfl

omit f in
/-- Taking out latencies leaves all other figures alone. -/
theorem sumOf_take {g : EseqStat → UInt64} (hg : ∀ x l, g { x with info := l } = g x) (i : ℕ)
    (ea : EseqAdmin nkeys) : sumOf g (ea.modify i .afresh) = sumOf g ea :=
  sumOf_modify (h := EseqEntry.afresh) (fun x => hg x.stats _) i ea

/-- The copies are left alone by the samples, also by those of new publishers. -/
theorem sumOf_back_sample (hf : f .zeroed = 0) {sublatency : Bool} {ea : EseqAdmin nkeys}
    {p : UInt64} {a : Arrival} {r : EseqAdmin nkeys × Bool}
    (h : checkEseq sublatency ea p a = some r) (i : Fin 10) :
    sumOf (fun x => f (x.ring.back i)) r.1 = sumOf (fun x => f (x.ring.back i)) ea := by
  obtain ⟨k, hr⟩ := checkEseq_eq_some h
  have hadd := @sumOf_upsert nkeys (fun x => f (x.ring.back i)) 0 p (.received sublatency a k)
    (.first sublatency p a) (fun x => (UInt64.add_zero _).symm) hf ea
  rw [hr, hadd, UInt64.add_zero]

/-- Every sample adds its weight. -/
theorem sumOf_sample {w : Arrival → ℕ}
    (hc : ∀ (s : Bool) (a : Arrival) (k : Fin nkeys.toNat) (x : EseqEntry nkeys),
      f (x.received s a k).stats.toEseqTotals = f x.stats.toEseqTotals + UInt64.ofNat (w a))
    (hn : ∀ (s : Bool) (p : UInt64) (a : Arrival),
      f (EseqEntry.first s p a : EseqEntry nkeys).stats.toEseqTotals = UInt64.ofNat (w a))
    {sublatency : Bool} {ea : EseqAdmin nkeys} {p : UInt64} {a : Arrival}
    {r : EseqAdmin nkeys × Bool} (h : checkEseq sublatency ea p a = some r) :
    sumOf (fun x => f x.toEseqTotals) r.1 =
      sumOf (fun x => f x.toEseqTotals) ea + UInt64.ofNat (w a) := by
  obtain ⟨k, hr⟩ := checkEseq_eq_some h
  rw [hr]
  exact sumOf_upsert (hc sublatency a k) (hn sublatency p a) ea

end Copies

/-! ### Windows of samples -/

/-- The samples told of behind the `k`-th last second, read from the end of the log. -/
def samplesSince : ℕ → List ReportEvent → List Arrival
  | 0, _ => []
  | _ + 1, [] => []
  | k + 1, .sample _ a :: log => a :: samplesSince (k + 1) log
  | k + 1, .substat _ _ :: log => samplesSince k log
  | k + 1, .taken _ :: log => samplesSince (k + 1) log
  | k + 1, .sublat _ :: log => samplesSince (k + 1) log

/-- The lines of a log read from its end, latest first, those not printed included. -/
def linesOf (log : List ReportEvent) : List SubLine :=
  log.filterMap fun e => match e with
    | .substat l _ => some l
    | _ => none

/-- All samples of a log. -/
def samplesOf (log : List ReportEvent) : List Arrival :=
  log.filterMap fun e => match e with
    | .sample _ a => some a
    | _ => none

def weight (w : Arrival → ℕ) (as : List Arrival) : ℕ := (as.map w).sum

theorem weight_cons (w : Arrival → ℕ) (a : Arrival) (as : List Arrival) :
    weight w (a :: as) = w a + weight w as := by simp [weight]

theorem weight_one (as : List Arrival) : weight (fun _ => 1) as = as.length := by
  simp [weight]

/-- A figure that weighs the samples: what one sample adds to it, in either branch. -/
structure Weighs (nkeys : UInt32) (f : EseqTotals → UInt64) (w : Arrival → ℕ) : Prop where
  zeroed : f .zeroed = 0
  received : ∀ (s : Bool) (a : Arrival) (k : Fin nkeys.toNat) (x : EseqEntry nkeys),
    f (x.received s a k).stats.toEseqTotals = f x.stats.toEseqTotals + UInt64.ofNat (w a)
  first : ∀ (s : Bool) (p : UInt64) (a : Arrival),
    f (EseqEntry.first s p a : EseqEntry nkeys).stats.toEseqTotals = UInt64.ofNat (w a)

theorem weighs_nrecv : Weighs nkeys (·.nrecv) fun _ => 1 :=
  ⟨rfl, fun _ _ _ _ => rfl, fun _ _ _ => rfl⟩

theorem weighs_nrecvBytes : Weighs nkeys (·.nrecvBytes) fun a => a.size.toNat where
  zeroed := rfl
  received _ a _ x := by
    show x.stats.nrecvBytes + a.size.toUInt64 = _
    rw [UInt64.ofNat_uInt32ToNat]
  first _ _ a := (UInt64.ofNat_uInt32ToNat a.size).symm

/-- A total and its copies agree with the samples told of. -/
structure Windowed (f : EseqTotals → UInt64) (w : Arrival → ℕ) (ea : EseqAdmin nkeys)
    (log : List ReportEvent) : Prop where
  total : sumOf (fun x => f x.toEseqTotals) ea = UInt64.ofNat (weight w (samplesOf log.reverse))
  window : ∀ i : Fin 10, sumOf (fun x => f x.toEseqTotals) ea =
    sumOf (fun x => f (x.ring.back i)) ea +
      UInt64.ofNat (weight w (samplesSince (i + 1) log.reverse))

section Windows
variable {f : EseqTotals → UInt64} {w : Arrival → ℕ} {ea : EseqAdmin nkeys}
  {log : List ReportEvent}

theorem windowed_init : Windowed f w (initEseqAdmin nkeys) [] := ⟨rfl, fun _ => rfl⟩

theorem Windowed.sample (h : Windowed f w ea log) (hw : Weighs nkeys f w) {sublatency : Bool}
    {p : UInt64} {a : Arrival} {r : EseqAdmin nkeys × Bool}
    (hr : checkEseq sublatency ea p a = some r) : Windowed f w r.1 (log ++ [.sample p a]) where
  total := by
    rw [sumOf_sample f hw.received hw.first hr, h.total, List.reverse_append, ← UInt64.ofNat_add,
      Nat.add_comm]
    exact congrArg UInt64.ofNat (weight_cons w a _).symm
  window i := by
    rw [sumOf_sample f hw.received hw.first hr, sumOf_back_sample f hw.zeroed hr, h.window i,
      List.reverse_append, UInt64.add_assoc, ← UInt64.ofNat_add, Nat.add_comm (weight _ _)]
    exact congrArg (_ + UInt64.ofNat ·) (weight_cons w a _).symm

theorem Windowed.substat (h : Windowed f w ea log) (l : SubLine) (printed : Bool) :
    Windowed f w (substat ea).2 (log ++ [.substat l printed]) where
  total := by
    rw [sumOf_substat, List.reverse_append]
    exact h.total
  window i := by
    rw [sumOf_substat, List.reverse_append]
    rcases eq_zero_or_succ i with rfl | ⟨j, rfl, hj⟩
    · rw [sumOf_back_zero]
      simp [samplesSince, weight]
    · have hval : (j + 1).val = j.val + 1 := by
        revert hj
        generalize j = k
        revert k
        decide
      rw [sumOf_back_succ f hj, hval]
      exact h.window j

theorem Windowed.take (h : Windowed f w ea log) (i : ℕ) (p : UInt64) :
    Windowed f w (ea.modify i .afresh) (log ++ [.taken p]) where
  total := by
    rw [List.reverse_append]
    exact (sumOf_take (fun _ _ => rfl) i ea).trans h.total
  window j := by
    have hback : sumOf (fun x => f (x.ring.back j)) (ea.modify i .afresh) = _ :=
      sumOf_take (fun _ _ => rfl) i ea
    rw [hback, List.reverse_append]
    exact (sumOf_take (fun _ _ => rfl) i ea).trans (h.window j)

theorem Windowed.sublat (h : Windowed f w ea log) (l : SubLatency) :
    Windowed f w ea (log ++ [.sublat l]) where
  total := by
    rw [List.reverse_append]
    exact h.total
  window j := by
    rw [List.reverse_append]
    exact h.window j

end Windows

/-! ### What one operation does -/

/-- Each operation with what it needs, what becomes of the table and what is told. -/
theorem reportStep_cases {opts : ReportOptions} {s : Printer nkeys} {op : ReportOp}
    {r : Printer nkeys × Option ReportEvent} (hr : reportStep opts s op = some r) :
    (∃ p a r', checkEseq opts.sublatency s.ea p a = some r' ∧ r.1.ea = r'.1 ∧
      r.1.taken =
        s.taken.map (fun t => { t with moved := t.moved || s.ea.length < r'.1.length }) ∧
      r.2 = some (.sample p a)) ∨
    (s.taken = none ∧ r.1 = ⟨(substat s.ea).2, none⟩ ∧
      r.2 = some (.substat (substat s.ea).1
        ((substat s.ea).1.nrecv > 0 || opts.substatEverySecond))) ∨
    (∃ i x, s.taken = none ∧ s.ea[i]? = some x ∧ opts.sublatency = true ∧
      r.1 = ⟨s.ea.modify i .afresh, some ⟨i, x.stats.info, false⟩⟩ ∧ r.2 = some (.taken x.ph)) ∨
    (∃ t x, s.taken = some t ∧ t.moved = false ∧ s.ea[t.place]? = some x ∧
      r.1 = ⟨s.ea, none⟩ ∧
      r.2 = some (.sublat ⟨x.ph, x.pph, x.stats.lastSize, t.y.print⟩)) := by
  cases op with
  | sample p a =>
    obtain ⟨r', hr', rfl⟩ := Option.map_eq_some_iff.mp hr
    exact .inl ⟨p, a, r', hr', rfl, rfl, rfl⟩
  | substat =>
    cases ht : s.taken with
    | some t => simp [reportStep, ht] at hr
    | none =>
      simp only [reportStep, ht, Option.some.injEq] at hr
      exact .inr (.inl ⟨rfl, hr ▸ rfl, hr ▸ rfl⟩)
  | take i =>
    cases ht : s.taken with
    | some t => simp [reportStep, ht] at hr
    | none =>
      cases hx : s.ea[i]? with
      | none => simp [reportStep, ht, hx] at hr
      | some x =>
        simp only [reportStep, ht, hx] at hr
        split_ifs at hr with hs
        obtain rfl := Option.some.inj hr
        exact .inr (.inr (.inl ⟨i, x, rfl, hx, hs, rfl, rfl⟩))
  | sublat =>
    cases ht : s.taken with
    | none => simp [reportStep, ht] at hr
    | some t =>
      simp only [reportStep, ht] at hr
      split_ifs at hr with hm
      obtain ⟨x, hx, rfl⟩ := Option.map_eq_some_iff.mp hr
      exact .inr (.inr (.inr ⟨t, x, rfl, by simpa using hm, hx, rfl, rfl⟩))

theorem windowed_step {f : EseqTotals → UInt64} {w : Arrival → ℕ} (hw : Weighs nkeys f w)
    {opts : ReportOptions} {s : Printer nkeys} {log : List ReportEvent} {op : ReportOp}
    {r : Printer nkeys × Option ReportEvent} (h : Windowed f w s.ea log)
    (hr : reportStep opts s op = some r) : Windowed f w r.1.ea (log ++ r.2.toList) := by
  obtain ⟨p, a, r', hr', hea, -, he⟩ | ⟨-, hs, he⟩ | ⟨i, x, -, -, -, hs, he⟩ |
    ⟨t, x, -, -, -, hs, he⟩ := reportStep_cases hr
  · rw [hea, he]
    exact h.sample hw hr'
  · rw [hs, he]
    exact h.substat _ _
  · rw [hs, he]
    exact h.take i _
  · rw [hs, he]
    exact h.sublat _

/-! ### What a line says -/

/-- The line counts the samples told of, those behind the last second and those behind the tenth
second before; its losses and those of the second before differ by what it says. -/
structure Accurate (before : List ReportEvent) (l : SubLine) : Prop where
  totNrecv : l.totNrecv = UInt64.ofNat (samplesOf before).length
  nrecv : l.nrecv = UInt64.ofNat (samplesSince 1 before.reverse).length
  nrecvBytes :
    l.nrecvBytes = UInt64.ofNat (weight (·.size.toNat) (samplesSince 1 before.reverse))
  nrecv10s : l.nrecv10s = UInt64.ofNat (samplesSince 10 before.reverse).length
  nrecv10sBytes :
    l.nrecv10sBytes = UInt64.ofNat (weight (·.size.toNat) (samplesSince 10 before.reverse))
  nlost : l.totNlost = ((linesOf before.reverse).map SubLine.totNlost).headD 0 + l.nlost

/-- The copies of the losses are the losses of the seconds before. -/
def LostLines (ea : EseqAdmin nkeys) (log : List ReportEvent) : Prop :=
  ∀ i : Fin 10, sumOf (fun x => (x.ring.back i).nlost) ea =
    ago 0 ((linesOf log.reverse).map SubLine.totNlost) i

theorem lostLines_step {opts : ReportOptions} {s : Printer nkeys} {log : List ReportEvent}
    {op : ReportOp} {r : Printer nkeys × Option ReportEvent} (h : LostLines s.ea log)
    (hr : reportStep opts s op = some r) : LostLines r.1.ea (log ++ r.2.toList) := by
  intro i
  obtain ⟨p, a, r', hr', hea, -, he⟩ | ⟨-, hs, he⟩ | ⟨j, x, -, -, -, hs, he⟩ |
    ⟨t, x, -, -, -, hs, he⟩ := reportStep_cases hr
  · rw [hea, he, List.reverse_append]
    exact (sumOf_back_sample (·.nlost) rfl hr' i).trans (h i)
  · rw [hs, he, List.reverse_append, Option.toList_some]
    have hlines : (linesOf ([ReportEvent.substat (substat s.ea).1
          ((substat s.ea).1.nrecv > 0 || opts.substatEverySecond)].reverse ++ log.reverse)).map
        SubLine.totNlost = sumOf (·.nlost) s.ea :: (linesOf log.reverse).map SubLine.totNlost := by
      rw [← (substat_line s.ea).2.1]
      rfl
    rw [hlines]
    rcases eq_zero_or_succ i with rfl | ⟨j, rfl, hj⟩
    · rw [sumOf_back_zero (·.nlost), ago_cons_zero]
    · rw [sumOf_back_succ (·.nlost) hj, ago_cons_succ _ _ _ hj, h j]
  · rw [hs, he, List.reverse_append]
    exact (sumOf_take (fun _ _ => rfl) j s.ea).trans (h i)
  · rw [hs, he, List.reverse_append]
    exact h i

theorem accurate_substat {ea : EseqAdmin nkeys} {log : List ReportEvent}
    (hn : Windowed (·.nrecv) (fun _ => 1) ea log)
    (hb : Windowed (·.nrecvBytes) (·.size.toNat) ea log) (hl : LostLines ea log) :
    Accurate log (substat ea).1 := by
  obtain ⟨htot, hlost, hnrecv, hnlost, hbytes, hnrecv10, hbytes10⟩ := substat_line ea
  have hsub : ∀ a b c : UInt64, a = b + c → a - b = c := by grind
  constructor
  · rw [htot, hn.total, weight_one, samplesOf, List.filterMap_reverse, List.length_reverse]
    rfl
  · rw [hnrecv, hsub _ _ _ (hn.window 0), weight_one]
    rfl
  · rw [hbytes, hsub _ _ _ (hb.window 0)]
    rfl
  · rw [hnrecv10, hsub _ _ _ (hn.window 9), weight_one]
    rfl
  · rw [hbytes10, hsub _ _ _ (hb.window 9)]
    rfl
  · rw [hlost, hnlost, hl 0]
    have hz : ago 0 ((linesOf log.reverse).map SubLine.totNlost) (0 : Fin 10) =
        ((linesOf log.reverse).map SubLine.totNlost).headD 0 := by
      cases (linesOf log.reverse).map SubLine.totNlost <;> rfl
    rw [hz]
    grind

end DdsBenchmark.Perf
