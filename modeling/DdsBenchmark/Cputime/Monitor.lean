import Mathlib.Algebra.Order.Field.Rat
import DdsBenchmark.CLib.Text
import DdsBenchmark.Table.Overwrite

/-! The CPU and memory monitor, from the texts of `/proc` to the stored table. One snapshot
reads the clock, the process status, the thread list and one stat line and one name for each
thread; it then walks the threads, looks each up by its identifier in the table of the
previous snapshot, and overwrites that table cell by cell in the same walk. The figures
declared `double` are exact rationals. -/

namespace DdsBenchmark.Cputime

open CLib Overwrite

def bcliMaxThreads : ℕ := 64

structure BcliThreadStat where
  tid : UInt64
  name : List Char
  userSec : ℚ
  sysSec : ℚ
  deriving DecidableEq

structure BcliSnapshot where
  timestampNs : UInt64
  vcsw : UInt64
  ivcsw : UInt64
  rssKb : UInt64
  numThreads : UInt32
  threads : List BcliThreadStat
  threads_length : threads.length = bcliMaxThreads

structure BcliMonitor where
  prevVcsw : UInt64
  prevIvcsw : UInt64
  prevTimestampNs : UInt64
  prevThreads : List BcliThreadStat
  prevThreadCount : ℕ
  prevThreads_length : prevThreads.length = bcliMaxThreads
  prevThreadCount_le : prevThreadCount ≤ bcliMaxThreads

/-- The three figures that `read_status` returns through its reference parameters. -/
structure StatusFigures where
  vcsw : UInt64
  ivcsw : UInt64
  rssKb : UInt64
  deriving DecidableEq

/-- What the system hands to one snapshot. A text is absent when its file cannot be opened. -/
structure ProcFs where
  tvSec : UInt64
  tvNsec : UInt64
  status : Option (List Char)
  /-- The indeterminate values of the variables passed to `read_status`. -/
  unassigned : StatusFigures
  /-- The names that `readdir` yields for the task directory. -/
  task : Option (List (List Char))
  stat : UInt64 → Option (List Char)
  comm : UInt64 → Option (List Char)
  clkTck : ℕ

/-! ### Reading `/proc` -/

def getTimestampNs (proc : ProcFs) : UInt64 := proc.tvSec * 1000000000 + proc.tvNsec

/-- One line of the status file. -/
def statusLine (figures : StatusFigures) (line : List Char) : StatusFigures :=
  if strncmpEq (cstr line) "voluntary_ctxt_switches:".toList 23 then
    { figures with vcsw := (sscanfLu ((cstr line).drop 23)).getD figures.vcsw }
  else if strncmpEq (cstr line) "nonvoluntary_ctxt_switches:".toList 26 then
    { figures with ivcsw := (sscanfLu ((cstr line).drop 26)).getD figures.ivcsw }
  else if strncmpEq (cstr line) "VmRSS:".toList 6 then
    { figures with rssKb := (sscanfLu ((cstr line).drop 6)).getD figures.rssKb }
  else figures

/-- The parameters keep what they held when the file cannot be opened. -/
def readStatus (status : Option (List Char)) (figures : StatusFigures) : StatusFigures :=
  match status with
  | none => figures
  | some text => (fgetsLines 255 255 text).foldl statusLine ⟨0, 0, 0⟩

/-- The loop over the directory entries, `n` identifiers stored so far. -/
def tidLoop (max : ℕ) : ℕ → List (List Char) → List UInt64
  | _, [] => []
  | n, ent :: rest =>
    if n < max then
      if ent.head?.any Char.isDigit then atoll ent :: tidLoop max (n + 1) rest
      else tidLoop max n rest
    else []

def getThreadTids (task : Option (List (List Char))) (max : ℕ) : List UInt64 :=
  match task with
  | none => []
  | some entries => tidLoop max 0 entries

/-- The loop over the tokens behind the name, `field` of them seen so far. -/
def statFields (clkTck : ℕ) : ℕ → List (List Char) → ℚ × ℚ → ℚ × ℚ
  | _, [], times => times
  | field, token :: tokens, (utime, stime) =>
    if field + 1 = 12 then statFields clkTck (field + 1) tokens (atof token / clkTck, stime)
    else if field + 1 = 13 then (utime, atof token / clkTck)
    else statFields clkTck (field + 1) tokens (utime, stime)

/-- Whether the line could be read, and the two times. -/
def readThreadStat (stat : Option (List Char)) (clkTck : ℕ) (times : ℚ × ℚ) : Bool × (ℚ × ℚ) :=
  match stat with
  | none => (false, times)
  | some text =>
    match (fgetsLines 1023 1023 text).head? with
    | none => (false, times)
    | some buf =>
      match strrchr ')' (cstr buf) with
      | none => (false, times)
      | some p => (true, statFields clkTck 0 (strtok ' ' p.tail) times)

def readThreadName (comm : Option (List Char)) (tid : UInt64) (maxlen : ℕ) : List Char :=
  match comm with
  | none => ("tid:".toList ++ Nat.toDigits 10 tid.toNat).take (maxlen - 1)
  | some text =>
    cstr ((text.take (maxlen - 1)).reverse.dropWhile (fun c => c = '\n' || c = '\r')).reverse

theorem length_tidLoop (max : ℕ) (entries : List (List Char)) (n : ℕ) (hn : n ≤ max) :
    n + (tidLoop max n entries).length ≤ max := by
  induction entries generalizing n with
  | nil => simpa [tidLoop] using hn
  | cons ent rest ih =>
    simp only [tidLoop]
    split_ifs with hlt
    · have hh := ih (n + 1) hlt
      rw [List.length_cons]
      omega
    · exact ih n hn
    · exact hn

theorem length_getThreadTids_le (task : Option (List (List Char))) (max : ℕ) :
    (getThreadTids task max).length ≤ max := by
  cases task with
  | none => exact Nat.zero_le _
  | some entries => simpa [getThreadTids] using length_tidLoop max entries 0 (Nat.zero_le _)

namespace ProcFs

def tids (proc : ProcFs) : List UInt64 := getThreadTids proc.task bcliMaxThreads

/-- The entry of one thread, its times `0` when they cannot be read. -/
def readThread (proc : ProcFs) (tid : UInt64) : BcliThreadStat :=
  let times := readThreadStat (proc.stat tid) proc.clkTck (0, 0)
  { tid := tid
    name := readThreadName (proc.comm tid) tid 32
    userSec := if times.1 then times.2.1 else 0
    sysSec := if times.1 then times.2.2 else 0 }

/-- The array filled by the first loop of a snapshot. -/
def current (proc : ProcFs) : List BcliThreadStat := proc.tids.map proc.readThread

@[simp] theorem readThread_tid (proc : ProcFs) (tid : UInt64) : (proc.readThread tid).tid = tid :=
  rfl

@[simp] theorem length_current (proc : ProcFs) : proc.current.length = proc.tids.length :=
  List.length_map _

/-- An entry of the array is what was read of its thread. -/
theorem readThread_of_mem_current {proc : ProcFs} {e : BcliThreadStat} (he : e ∈ proc.current) :
    e.tid ∈ proc.tids ∧ proc.readThread e.tid = e := by
  obtain ⟨t, ht, rfl⟩ := List.mem_map.mp he
  exact ⟨ht, rfl⟩

theorem length_tids_le (proc : ProcFs) : proc.tids.length ≤ bcliMaxThreads :=
  length_getThreadTids_le _ _

theorem map_tid_current (proc : ProcFs) : proc.current.map BcliThreadStat.tid = proc.tids := by
  rw [current, List.map_map]
  exact List.map_id _

end ProcFs

/-! ### The walk over the threads -/

/-- What one thread reports against the entry found for it, and whether that is worth a line. -/
def report (prev : Option BcliThreadStat) (dt : ℚ) (cur : BcliThreadStat) :
    BcliThreadStat × Bool :=
  let thr := { cur with name := cur.name.take 31, userSec := 0, sysSec := 0 }
  match prev with
  | none => (thr, false)
  | some prev =>
    if dt > 0 then
      let du := (cur.userSec - prev.userSec) / dt
      let ds := (cur.sysSec - prev.sysSec) / dt
      ({ thr with userSec := du, sysSec := ds }, decide (du ≥ 5 / 1000 ∨ ds ≥ 5 / 1000))
    else (thr, false)

/-- The data the walk changes: the stored table, the reported threads and the result. -/
structure Sweep where
  prevThreads : List BcliThreadStat
  threads : List BcliThreadStat
  anyAbove : Bool

/-- One pass: search the table as it stands, report, overwrite cell `i`. -/
def sweepStep (prevThreadCount : ℕ) (dt : ℚ) (s : Sweep) (i : ℕ) (cur : BcliThreadStat) : Sweep :=
  let prev := search BcliThreadStat.tid s.prevThreads prevThreadCount cur.tid
  { prevThreads := s.prevThreads.set i cur
    threads := s.threads.set i (report prev dt cur).1
    anyAbove := s.anyAbove || (report prev dt cur).2 }

def sweep (prevThreadCount : ℕ) (dt : ℚ) : ℕ → List BcliThreadStat → Sweep → Sweep
  | _, [], s => s
  | i, cur :: rest, s =>
    if i < bcliMaxThreads then
      sweep prevThreadCount dt (i + 1) rest (sweepStep prevThreadCount dt s i cur)
    else s

theorem length_sweep (prevThreadCount : ℕ) (dt : ℚ) (i : ℕ) (cur : List BcliThreadStat)
    (s : Sweep) :
    (sweep prevThreadCount dt i cur s).prevThreads.length = s.prevThreads.length ∧
      (sweep prevThreadCount dt i cur s).threads.length = s.threads.length := by
  induction cur generalizing i s with
  | nil => exact ⟨rfl, rfl⟩
  | cons c rest ih =>
    rw [sweep]
    split_ifs
    · simpa [sweepStep] using ih (i + 1) (sweepStep prevThreadCount dt s i c)
    · exact ⟨rfl, rfl⟩

/-- A table whose bytes are all `0`. -/
def zeroedThreads : List BcliThreadStat := List.replicate bcliMaxThreads ⟨0, [], 0, 0⟩

theorem length_zeroedThreads : zeroedThreads.length = bcliMaxThreads := List.length_replicate

namespace BcliMonitor

/-- The constructor. -/
def new : BcliMonitor where
  prevVcsw := 0
  prevIvcsw := 0
  prevTimestampNs := 0
  prevThreads := zeroedThreads
  prevThreadCount := 0
  prevThreads_length := length_zeroedThreads
  prevThreadCount_le := Nat.zero_le _

/-- Seconds since the previous snapshot, `0` for the first. -/
def dt (m : BcliMonitor) (proc : ProcFs) : ℚ :=
  if m.prevTimestampNs > 0 then
    ((getTimestampNs proc - m.prevTimestampNs).toNat : ℚ) / 1000000000 else 0

/-- The walk of one snapshot. -/
def walk (m : BcliMonitor) (proc : ProcFs) (threads : List BcliThreadStat) : Sweep :=
  sweep m.prevThreadCount (m.dt proc) 0 proc.current ⟨m.prevThreads, threads, false⟩

end BcliMonitor

/-- What a call of `snapshot` leaves behind: its parameter, the object and its result. -/
structure SnapshotResult where
  out : BcliSnapshot
  monitor : BcliMonitor
  anyAbove : Bool

def BcliMonitor.snapshot (m : BcliMonitor) (proc : ProcFs) (out : BcliSnapshot) :
    SnapshotResult :=
  let nowNs := getTimestampNs proc
  let status := readStatus proc.status proc.unassigned
  let nthreads := proc.tids.length
  let s := m.walk proc out.threads
  { out :=
      { timestampNs := nowNs
        vcsw := if status.vcsw > m.prevVcsw then status.vcsw - m.prevVcsw else 0
        ivcsw := if status.ivcsw > m.prevIvcsw then status.ivcsw - m.prevIvcsw else 0
        rssKb := status.rssKb
        numThreads := UInt32.ofNat nthreads
        threads := s.threads
        threads_length := (length_sweep _ _ _ _ _).2.trans out.threads_length }
    monitor :=
      { prevVcsw := status.vcsw
        prevIvcsw := status.ivcsw
        prevTimestampNs := nowNs
        prevThreads := s.prevThreads
        prevThreadCount := nthreads
        prevThreads_length := (length_sweep _ _ _ _ _).1.trans m.prevThreads_length
        prevThreadCount_le := proc.length_tids_le }
    anyAbove := s.anyAbove }

/-- A printed line: the prefix, the process figures, and the name and the two percentages of
every thread worth showing. -/
structure CpuLine where
  linePrefix : List Char
  vcsw : UInt64
  ivcsw : UInt64
  rssKb : UInt64
  threads : List (List Char × ℚ × ℚ)
  deriving DecidableEq

/-- `BcliMonitor::print`, short of the rounding done by `printf`. -/
def print (s : BcliSnapshot) (linePrefix : List Char) : CpuLine where
  linePrefix := linePrefix
  vcsw := s.vcsw
  ivcsw := s.ivcsw
  rssKb := s.rssKb
  threads := (s.threads.take s.numThreads.toNat).filterMap fun thr =>
    if thr.userSec ≥ 5 / 1000 ∨ thr.sysSec ≥ 5 / 1000 then
      some (thr.name, thr.userSec * 100, thr.sysSec * 100)
    else none

end DdsBenchmark.Cputime
