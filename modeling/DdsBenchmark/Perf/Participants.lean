import DdsBenchmark.Perf.Announce
import Mathlib.Data.List.Nodup
import Mathlib.Logic.Function.Basic

/-! What the performance tool knows of the participants, all of it under `disc_lock`: the
participants it was told of, indexed by handle, and a queue of those whose endpoints have yet to be
matched, by deadline. Both hold the addresses of the same records, which `malloc` places at any
free address. An address is in the index as long as its record is allocated, and in the queue as
long as its deadline has not been looked at. -/

namespace DdsBenchmark.Perf

/-- `struct ppant` without its nodes in the tree and in the queue. -/
structure Ppant where
  handle : UInt64
  guid : Guid
  hostname : List Char
  pid : UInt32
  tdisc : ℤ
  tdeadline : ℤ
  unmatched : UInt32
  deriving DecidableEq

/-- `DDS_NEVER`. -/
def never : ℤ := 2 ^ 63 - 1

/-- `DDS_SECS`. -/
def secs (n : ℤ) : ℤ := n * 10 ^ 9

def mmRdData : UInt32 := 1
def mmRdPing : UInt32 := 2
def mmRdPong : UInt32 := 4
def mmWrData : UInt32 := 8
def mmWrPing : UInt32 := 16
def mmWrPong : UInt32 := 32
def mmAll : UInt32 := 2 * mmWrPong - 1

/-- The endpoints a participant has to match; `rdData` says that our own reader exists. -/
def toBeMatched (hasReader rdData : Bool) : UInt32 :=
  mmAll &&& ~~~(if hasReader then 0 else mmRdData) &&& ~~~(if rdData then 0 else mmWrData)

/-- What the process knows of itself: its own handle and whether it listens to itself. -/
structure Local where
  dpHandle : UInt64
  ignorelocalNone : Bool

/-- `pp->handle != dp_handle || ignorelocal == DDS_IGNORELOCAL_NONE`. -/
def Local.counts (self : Local) (handle : UInt64) : Bool :=
  handle ≠ self.dpHandle || self.ignorelocalNone

/-- The record of a participant that is discovered at `now`. -/
def newPpant (self : Local) (handle : UInt64) (guid : Guid) (ann : Announcement) (rdData : Bool)
    (now : ℤ) : Ppant where
  handle := handle
  guid := guid
  hostname := ann.hostname
  pid := ann.pid
  tdisc := now
  tdeadline := now + secs 5
  unmatched := if self.counts handle then toBeMatched ann.hasReader rdData else 0

variable {ι : Type} [DecidableEq ι]

/-- The records, the addresses in the tree `ppants` and in the queue `ppants_to_match`, and the
counters. -/
structure Ppants (ι : Type) where
  mem : ι → Option Ppant
  ppants : List ι
  toMatch : List ι
  matchcount : UInt32
  matchtimeout : UInt32

namespace Ppants

def new : Ppants ι where
  mem := fun _ => none
  ppants := []
  toMatch := []
  matchcount := 0
  matchtimeout := 0

/-- `ddsrt_avl_lookup`. -/
def lookup (s : Ppants ι) (handle : UInt64) : Option (ι × Ppant) :=
  s.ppants.findSome? fun a => (s.mem a).bind fun pp =>
    if pp.handle = handle then some (a, pp) else none

/-- A record is written. -/
def store (s : Ppants ι) (a : ι) (pp : Option Ppant) : Ppants ι :=
  { s with mem := Function.update s.mem a pp }

/-- A new record goes into the queue and into the tree. -/
def insert (s : Ppants ι) (a : ι) (pp : Ppant) : Ppants ι :=
  { s.store a (some pp) with ppants := a :: s.ppants, toMatch := a :: s.toMatch }

/-- A record leaves the tree, and the queue if it has not been looked at, and is freed. -/
def remove (s : Ppants ι) (a : ι) (pp : Ppant) : Ppants ι :=
  { s.store a none with
    ppants := s.ppants.erase a
    toMatch := if pp.tdeadline ≠ never then s.toMatch.erase a else s.toMatch }

/-- What `async_endpoint_matched_listener` does under the lock. -/
def endpointMatched (s : Ppants ι) (mask : UInt32) (handle : UInt64) : Ppants ι :=
  match s.lookup handle with
  | none => s
  | some (a, pp) =>
    let unmatched := pp.unmatched &&& ~~~mask
    { s.store a (some { pp with unmatched }) with
      matchcount := if unmatched = 0 then s.matchcount + 1 else s.matchcount }

/-- The deadline the queue compares. -/
def deadline (s : Ppants ι) (a : ι) : ℤ := (s.mem a).elim 0 Ppant.tdeadline

/-- Some place of a list with the least key. -/
def minBy (key : ι → ℤ) : List ι → Option ι
  | [] => none
  | a :: as => some ((minBy key as).elim a fun b => if key a ≤ key b then a else b)

/-- `ddsrt_fibheap_min`; which of several first ones it is only shows in the order of a print. -/
def fibheapMin (s : Ppants ι) : Option ι := minBy s.deadline s.toMatch

/-- One turn of the loop of `main` over the participants whose deadline has passed. -/
def extract (s : Ppants ι) (a : ι) (pp : Ppant) : Ppants ι :=
  { s.store a (some { pp with tdeadline := never }) with
    toMatch := s.toMatch.erase a
    matchtimeout := if pp.unmatched ≠ 0 then s.matchtimeout + 1 else s.matchtimeout }

/-- The loop, for as many turns as the queue has places. -/
def expireLoop (now : ℤ) : ℕ → Ppants ι → Ppants ι
  | 0, s => s
  | n + 1, s =>
    match s.fibheapMin.bind fun a => (s.mem a).map (a, ·) with
    | none => s
    | some (a, pp) => if pp.tdeadline < now then expireLoop now n (s.extract a pp) else s

def expire (s : Ppants ι) (now : ℤ) : Ppants ι := expireLoop now s.toMatch.length s

/-- No address in the tree or in the queue dangles, no record leaks, the tree is an index, and the
queue has the records whose deadline is set. -/
structure Sound (s : Ppants ι) : Prop where
  nodup : s.ppants.Nodup
  live : ∀ a, a ∈ s.ppants ↔ (s.mem a).isSome
  index : ∀ a b x y, s.mem a = some x → s.mem b = some y → x.handle = y.handle → a = b
  queueNodup : s.toMatch.Nodup
  queue : ∀ a, a ∈ s.toMatch ↔ ∃ pp, s.mem a = some pp ∧ pp.tdeadline ≠ never

omit [DecidableEq ι] in
theorem sound_new : (new : Ppants ι).Sound where
  nodup := .nil
  live := by simp [new]
  index := by simp [new]
  queueNodup := .nil
  queue := by simp [new]

section Lookup
variable {s : Ppants ι} {a : ι} {pp : Ppant} {handle : UInt64}

omit [DecidableEq ι] in
theorem lookup_eq_some_iff (hs : s.Sound) :
    s.lookup handle = some (a, pp) ↔ s.mem a = some pp ∧ pp.handle = handle := by
  constructor
  · intro h
    obtain ⟨b, -, hb⟩ := List.exists_of_findSome?_eq_some h
    obtain ⟨y, hy, hif⟩ := Option.bind_eq_some_iff.mp hb
    split_ifs at hif with hh
    obtain ⟨rfl, rfl⟩ := Prod.mk.inj (Option.some.inj hif)
    exact ⟨hy, hh⟩
  · rintro ⟨hmem, rfl⟩
    cases hl : s.lookup pp.handle with
    | none =>
      have ha : a ∈ s.ppants := (hs.live a).mpr (by rw [hmem]; rfl)
      have hnone := List.findSome?_eq_none_iff.mp hl a ha
      rw [hmem, Option.bind_some, if_pos rfl] at hnone
      cases hnone
    | some r =>
      obtain ⟨b, -, hb⟩ := List.exists_of_findSome?_eq_some hl
      obtain ⟨y, hy, hif⟩ := Option.bind_eq_some_iff.mp hb
      split_ifs at hif with hh
      obtain rfl := hs.index _ _ _ _ hy hmem hh
      rw [hmem] at hy
      rw [← Option.some.inj hif, Option.some.inj hy]

omit [DecidableEq ι] in
theorem lookup_eq_none_iff (hs : s.Sound) :
    s.lookup handle = none ↔ ∀ a pp, s.mem a = some pp → pp.handle ≠ handle := by
  constructor
  · intro h a pp hmem hh
    rw [(lookup_eq_some_iff hs).mpr ⟨hmem, hh⟩] at h
    cases h
  · intro h
    cases hl : s.lookup handle with
    | none => rfl
    | some r =>
      obtain ⟨hmem, hhandle⟩ := (lookup_eq_some_iff hs).mp hl
      exact absurd hhandle (h _ _ hmem)

end Lookup

omit [DecidableEq ι] in
theorem minBy_eq_none_iff (key : ι → ℤ) (as : List ι) : minBy key as = none ↔ as = [] := by
  cases as <;> simp [minBy]

omit [DecidableEq ι] in
theorem minBy_spec {key : ι → ℤ} {as : List ι} {m : ι} (h : minBy key as = some m) :
    m ∈ as ∧ ∀ a ∈ as, key m ≤ key a := by
  induction as generalizing m with
  | nil => cases h
  | cons a as ih =>
    obtain rfl := Option.some.inj h
    cases hm : minBy key as with
    | none =>
      obtain rfl := (minBy_eq_none_iff key as).mp hm
      simp
    | some b =>
      obtain ⟨hmem, hle⟩ := ih hm
      rw [Option.elim_some]
      split_ifs with hab
      · exact ⟨List.mem_cons_self, List.forall_mem_cons.mpr
          ⟨le_rfl, fun x hx => hab.trans (hle x hx)⟩⟩
      · exact ⟨List.mem_cons_of_mem a hmem, List.forall_mem_cons.mpr ⟨by omega, hle⟩⟩

section Operations
variable {s : Ppants ι} {a : ι} {pp : Ppant}

theorem mem_insert_self (s : Ppants ι) (a : ι) (pp : Ppant) : (s.insert a pp).mem a = some pp :=
  Function.update_self ..

theorem mem_insert_of_ne {b : ι} (h : b ≠ a) : (s.insert a pp).mem b = s.mem b :=
  Function.update_of_ne h ..

theorem mem_remove_self (s : Ppants ι) (a : ι) (pp : Ppant) : (s.remove a pp).mem a = none :=
  Function.update_self ..

theorem mem_remove_of_ne {b : ι} (h : b ≠ a) : (s.remove a pp).mem b = s.mem b :=
  Function.update_of_ne h ..

theorem Sound.insert (hs : s.Sound) (hfree : s.mem a = none)
    (hnew : ∀ b x, s.mem b = some x → x.handle ≠ pp.handle) (hdue : pp.tdeadline ≠ never) :
    (s.insert a pp).Sound := by
  have hout : a ∉ s.ppants := by rw [hs.live, hfree]; simp
  have hnotq : a ∉ s.toMatch := by rw [hs.queue, hfree]; simp
  have hself := mem_insert_self s a pp
  have hother {b : ι} (hb : b ≠ a) : (s.insert a pp).mem b = s.mem b := mem_insert_of_ne hb
  constructor
  case nodup => exact List.nodup_cons.mpr ⟨hout, hs.nodup⟩
  case queueNodup => exact List.nodup_cons.mpr ⟨hnotq, hs.queueNodup⟩
  case live =>
    intro b
    show b ∈ a :: s.ppants ↔ _
    by_cases hb : b = a
    · subst hb
      rw [hself]
      simp
    · rw [hother hb, List.mem_cons, or_iff_right hb, hs.live]
  case queue =>
    intro b
    show b ∈ a :: s.toMatch ↔ _
    by_cases hb : b = a
    · subst hb
      rw [hself]
      simpa using hdue
    · rw [hother hb, List.mem_cons, or_iff_right hb, hs.queue]
  case index =>
    intro b c x y hx hy hxy
    by_cases hb : b = a <;> by_cases hc : c = a
    · rw [hb, hc]
    · subst hb
      rw [hself] at hx
      rw [hother hc] at hy
      exact absurd hxy.symm (Option.some.inj hx ▸ hnew _ _ hy)
    · subst hc
      rw [hself] at hy
      rw [hother hb] at hx
      exact absurd hxy (Option.some.inj hy ▸ hnew _ _ hx)
    · rw [hother hb] at hx
      rw [hother hc] at hy
      exact hs.index _ _ _ _ hx hy hxy

theorem Sound.remove (hs : s.Sound) (hmem : s.mem a = some pp) : (s.remove a pp).Sound := by
  have hself := mem_remove_self s a pp
  have hother {b : ι} (hb : b ≠ a) : (s.remove a pp).mem b = s.mem b := mem_remove_of_ne hb
  have hqueue : (s.remove a pp).toMatch = s.toMatch.erase a := by
    show (if pp.tdeadline ≠ never then _ else _) = _
    split_ifs with h
    · rfl
    · refine (List.erase_of_not_mem ?_).symm
      rw [hs.queue]
      rintro ⟨x, hx, hne⟩
      exact h (Option.some.inj (hmem.symm.trans hx) ▸ hne)
  constructor
  case nodup => exact hs.nodup.erase a
  case queueNodup => exact hqueue ▸ hs.queueNodup.erase a
  case live =>
    intro b
    show b ∈ s.ppants.erase a ↔ _
    rw [hs.nodup.mem_erase_iff]
    by_cases hb : b = a
    · subst hb
      rw [hself]
      simp
    · rw [hother hb, and_iff_right hb, hs.live]
  case queue =>
    intro b
    rw [hqueue, hs.queueNodup.mem_erase_iff]
    by_cases hb : b = a
    · subst hb
      rw [hself]
      simp
    · rw [hother hb, and_iff_right hb, hs.queue]
  case index =>
    intro b c x y hx hy hxy
    have hb : b ≠ a := by rintro rfl; rw [hself] at hx; cases hx
    have hc : c ≠ a := by rintro rfl; rw [hself] at hy; cases hy
    rw [hother hb] at hx
    rw [hother hc] at hy
    exact hs.index _ _ _ _ hx hy hxy

/-- A record is rewritten in its place, with the same handle. -/
theorem Sound.rewrite {x : Ppant} {m t : UInt32} {q : List ι} (hs : s.Sound)
    (hmem : s.mem a = some pp) (hhandle : x.handle = pp.handle) (hq : q.Nodup)
    (hself : a ∈ q ↔ x.tdeadline ≠ never) (hother : ∀ b, b ≠ a → (b ∈ q ↔ b ∈ s.toMatch)) :
    ({ s.store a (some x) with toMatch := q, matchcount := m, matchtimeout := t } :
      Ppants ι).Sound := by
  have hat : (s.store a (some x)).mem a = some x := Function.update_self ..
  have hne {b : ι} (hb : b ≠ a) : (s.store a (some x)).mem b = s.mem b :=
    Function.update_of_ne hb ..
  have hsame : ∀ b y, (s.store a (some x)).mem b = some y →
      ∃ z, s.mem b = some z ∧ y.handle = z.handle := by
    intro b y hy
    by_cases hb : b = a
    · subst hb
      rw [hat] at hy
      exact ⟨pp, hmem, Option.some.inj hy ▸ hhandle⟩
    · rw [hne hb] at hy
      exact ⟨y, hy, rfl⟩
  constructor
  case nodup => exact hs.nodup
  case queueNodup => exact hq
  case live =>
    intro b
    show b ∈ s.ppants ↔ ((s.store a (some x)).mem b).isSome
    rw [hs.live]
    by_cases hb : b = a
    · subst hb
      rw [hat, hmem]
      rfl
    · rw [hne hb]
  case queue =>
    intro b
    show b ∈ q ↔ ∃ y, (s.store a (some x)).mem b = some y ∧ _
    by_cases hb : b = a
    · subst hb
      rw [hat, hself]
      simp
    · rw [hother b hb, hne hb, hs.queue]
  case index =>
    intro b c y z hy hz hyz
    obtain ⟨y', hy', hyh⟩ := hsame b y hy
    obtain ⟨z', hz', hzh⟩ := hsame c z hz
    exact hs.index _ _ _ _ hy' hz' (by rw [← hyh, ← hzh, hyz])

theorem Sound.endpointMatched (hs : s.Sound) (mask : UInt32) (handle : UInt64) :
    (s.endpointMatched mask handle).Sound := by
  unfold Ppants.endpointMatched
  cases hl : s.lookup handle with
  | none => exact hs
  | some r =>
    have hmem := ((lookup_eq_some_iff hs).mp hl).1
    have hqueue : r.1 ∈ s.toMatch ↔ r.2.tdeadline ≠ never := by
      rw [hs.queue, hmem]
      simp
    exact hs.rewrite hmem rfl hs.queueNodup hqueue fun b _ => Iff.rfl

theorem Sound.extract (hs : s.Sound) (hmem : s.mem a = some pp) : (s.extract a pp).Sound := by
  refine hs.rewrite hmem rfl (hs.queueNodup.erase a) ?_ fun b hb => ?_
  · rw [hs.queueNodup.mem_erase_iff]
    simp
  · rw [hs.queueNodup.mem_erase_iff, and_iff_right hb]

end Operations

/-! ### The deadlines -/

/-- What the loop over the deadlines leaves of a record. -/
def expired (now : ℤ) (pp : Ppant) : Ppant :=
  if pp.tdeadline < now then { pp with tdeadline := never } else pp

/-- The records the loop counts. -/
def failed (s : Ppants ι) (now : ℤ) (a : ι) : Bool :=
  (s.mem a).any fun pp => pp.tdeadline < now && pp.unmatched ≠ 0

theorem expired_of_never {now : ℤ} {pp : Ppant} (h : pp.tdeadline = never) :
    expired now pp = pp := by
  unfold expired
  split_ifs
  · rw [← h]
  · rfl

/-- What a run of the loop over the deadlines does to the whole. -/
structure Expires (now : ℤ) (s t : Ppants ι) : Prop where
  sound : t.Sound
  mem : ∀ a, t.mem a = (s.mem a).map (expired now)
  ppants : t.ppants = s.ppants
  matchcount : t.matchcount = s.matchcount
  matchtimeout : t.matchtimeout = s.matchtimeout + UInt32.ofNat (s.toMatch.countP (s.failed now))
  done : ∀ a ∈ t.toMatch, now ≤ t.deadline a

section Expire
variable {s : Ppants ι} {now : ℤ}

omit [DecidableEq ι] in
theorem Sound.deadline_eq_never (hs : s.Sound) {a : ι} {pp : Ppant} (hmem : s.mem a = some pp)
    (h : a ∉ s.toMatch) : pp.tdeadline = never := by
  by_contra hne
  exact h ((hs.queue a).mpr ⟨pp, hmem, hne⟩)

omit [DecidableEq ι] in
/-- The loop stops before the first deadline that has not passed. -/
theorem Sound.expires_self (hs : s.Sound) (h : ∀ a ∈ s.toMatch, now ≤ s.deadline a) :
    Expires now s s where
  sound := hs
  mem a := by
    cases hmem : s.mem a with
    | none => rfl
    | some pp =>
      rw [Option.map_some, expired]
      split_ifs with hlt
      · by_cases ha : a ∈ s.toMatch
        · have hle := h a ha
          rw [deadline, hmem, Option.elim_some] at hle
          omega
        · rw [← hs.deadline_eq_never hmem ha]
      · rfl
  ppants := rfl
  matchcount := rfl
  matchtimeout := by
    have hzero : s.toMatch.countP (s.failed now) = 0 := by
      rw [List.countP_eq_zero]
      intro a ha
      have hle := h a ha
      rw [deadline] at hle
      cases hmem : s.mem a with
      | none => simp [failed, hmem]
      | some pp =>
        rw [hmem, Option.elim_some] at hle
        simp [failed, hmem, hle]
    rw [hzero]
    exact (UInt32.add_zero _).symm
  done := h

theorem countP_extract (hs : s.Sound) {a : ι} {pp : Ppant} (ha : a ∈ s.toMatch)
    (hmem : s.mem a = some pp) (hlt : pp.tdeadline < now) :
    s.toMatch.countP (s.failed now) =
      (s.toMatch.erase a).countP ((s.extract a pp).failed now) +
        if pp.unmatched ≠ 0 then 1 else 0 := by
  have hrest : (s.toMatch.erase a).countP ((s.extract a pp).failed now) =
      (s.toMatch.erase a).countP (s.failed now) := by
    refine List.countP_congr fun b hb => ?_
    have hne : b ≠ a := (hs.queueNodup.mem_erase_iff.mp hb).1
    have hsame : (s.extract a pp).mem b = s.mem b := Function.update_of_ne hne ..
    rw [failed, failed, hsame]
  rw [hrest, (List.perm_cons_erase ha).countP_eq, List.countP_cons]
  simp [failed, hmem, hlt]

/-- The loop has enough turns: behind it no deadline in the queue has passed. -/
theorem expires_expireLoop (now : ℤ) {n : ℕ} (hs : s.Sound) (hn : s.toMatch.length ≤ n) :
    Expires now s (expireLoop now n s) := by
  induction n generalizing s with
  | zero =>
    have hnil : s.toMatch = [] := List.length_eq_zero_iff.mp (by omega)
    exact hs.expires_self (by simp [hnil])
  | succ n ih =>
    unfold expireLoop
    cases hmin : s.fibheapMin with
    | none =>
      have hnil : s.toMatch = [] := (minBy_eq_none_iff _ _).mp hmin
      exact hs.expires_self (by simp [hnil])
    | some a =>
      obtain ⟨ha, hleast⟩ := minBy_spec hmin
      obtain ⟨pp, hmem, -⟩ := (hs.queue a).mp ha
      have hdue : s.deadline a = pp.tdeadline := by rw [deadline, hmem, Option.elim_some]
      rw [Option.bind_some, hmem, Option.map_some]
      dsimp only
      split_ifs with hlt
      · have hlen : (s.extract a pp).toMatch.length ≤ n := by
          show (s.toMatch.erase a).length ≤ n
          rw [List.length_erase_of_mem ha]
          omega
        have ht := ih (hs.extract hmem) hlen
        refine ⟨ht.sound, fun b => ?_, ht.ppants, ht.matchcount, ?_, ht.done⟩
        · rw [ht.mem]
          by_cases hb : b = a
          · subst hb
            have hself : (s.extract b pp).mem b = some { pp with tdeadline := never } :=
              Function.update_self ..
            rw [hself, hmem, Option.map_some, Option.map_some, expired_of_never rfl, expired,
              if_pos hlt]
          · have hother : (s.extract a pp).mem b = s.mem b := Function.update_of_ne hb ..
            rw [hother]
        · rw [ht.matchtimeout, countP_extract hs ha hmem hlt]
          show (if pp.unmatched ≠ 0 then s.matchtimeout + 1 else s.matchtimeout) + _ = _
          split_ifs
          · rw [UInt32.ofNat_add, UInt32.add_comm _ (UInt32.ofNat 1), ← UInt32.add_assoc]
            rfl
          · rfl
      · exact hs.expires_self fun b hb => by
          have := hleast b hb
          omega

omit [DecidableEq ι] in
/-- A participant whose deadline has passed is in the queue. -/
theorem Sound.countP_failed (hs : s.Sound) (hnow : now ≤ never) :
    s.ppants.countP (s.failed now) = s.toMatch.countP (s.failed now) := by
  have hmem : ∀ a, a ∈ s.ppants.filter (s.failed now) ↔ a ∈ s.toMatch.filter (s.failed now) := by
    intro a
    rw [List.mem_filter, List.mem_filter, hs.live, hs.queue]
    refine and_congr_left fun hfailed => ?_
    cases hmem : s.mem a with
    | none => simp
    | some pp =>
      have hlt : pp.tdeadline < now := by
        rw [failed, hmem, Option.any_some, Bool.and_eq_true, decide_eq_true_eq] at hfailed
        exact hfailed.1
      simpa using (hlt.trans_le hnow).ne
  rw [List.countP_eq_length_filter, List.countP_eq_length_filter]
  exact ((List.perm_ext_iff_of_nodup (hs.nodup.filter _) (hs.queueNodup.filter _)).mpr
    hmem).length_eq

omit [DecidableEq ι] in
theorem Expires.mem_toMatch {t : Ppants ι} (h : Expires now s t) (hs : s.Sound) (a : ι) :
    a ∈ t.toMatch ↔ a ∈ s.toMatch ∧ now ≤ s.deadline a := by
  rw [h.sound.queue, h.mem, hs.queue, deadline]
  cases s.mem a with
  | none => simp
  | some pp =>
    rw [Option.map_some, Option.elim_some]
    by_cases hlt : pp.tdeadline < now
    · have hexp : expired now pp = { pp with tdeadline := never } := if_pos hlt
      simp [hexp, hlt]
    · have hexp : expired now pp = pp := if_neg hlt
      simp only [hexp, Option.some.injEq, exists_eq_left']
      omega

theorem expires_expire (hs : s.Sound) (now : ℤ) : Expires now s (s.expire now) :=
  expires_expireLoop now hs le_rfl

end Expire

/-! ### The participants that pongs are expected from -/

/-- The record at an address is of a participant that counts. -/
def countsAt (self : Local) (s : Ppants ι) (a : ι) : Bool :=
  ((s.mem a).map Ppant.handle).any self.counts

def counted (self : Local) (s : Ppants ι) : ℕ := s.ppants.countP (s.countsAt self)

section Counted
variable {self : Local} {s t : Ppants ι} {a : ι} {pp : Ppant}

omit [DecidableEq ι] in
theorem countsAt_of_mem (hmem : s.mem a = some pp) : s.countsAt self a = self.counts pp.handle := by
  rw [countsAt, hmem]
  rfl

omit [DecidableEq ι] in
theorem countsAt_congr {b : ι} (h : (t.mem b).map Ppant.handle = (s.mem b).map Ppant.handle) :
    t.countsAt self b = s.countsAt self b := by rw [countsAt, countsAt, h]

theorem counted_insert (self : Local) (pp : Ppant) (hs : s.Sound) (hfree : s.mem a = none) :
    (s.insert a pp).counted self = s.counted self + if self.counts pp.handle then 1 else 0 := by
  have hout : a ∉ s.ppants := by rw [hs.live, hfree]; simp
  have hself := mem_insert_self s a pp
  show (a :: s.ppants).countP _ = _
  rw [List.countP_cons, countsAt_of_mem hself, counted]
  congr 1
  refine List.countP_congr fun b hb => ?_
  have hne : b ≠ a := fun h => hout (h ▸ hb)
  have hsame : (s.insert a pp).mem b = s.mem b := mem_insert_of_ne hne
  have hcount : (s.insert a pp).countsAt self b = s.countsAt self b :=
    countsAt_congr (by rw [hsame])
  rw [hcount]

theorem counted_remove (self : Local) (hs : s.Sound) (hmem : s.mem a = some pp) :
    s.counted self = (s.remove a pp).counted self + if self.counts pp.handle then 1 else 0 := by
  have ha : a ∈ s.ppants := (hs.live a).mpr (by rw [hmem]; rfl)
  have hrest : (s.remove a pp).counted self = (s.ppants.erase a).countP (s.countsAt self) := by
    refine List.countP_congr fun b hb => ?_
    have hne : b ≠ a := (hs.nodup.mem_erase_iff.mp hb).1
    have hsame : (s.remove a pp).mem b = s.mem b := mem_remove_of_ne hne
    have hcount : (s.remove a pp).countsAt self b = s.countsAt self b :=
      countsAt_congr (by rw [hsame])
    rw [hcount]
  rw [hrest, counted, (List.perm_cons_erase ha).countP_eq, List.countP_cons, countsAt_of_mem hmem]

theorem handle_endpointMatched (hs : s.Sound) (mask : UInt32) (handle : UInt64) (b : ι) :
    ((s.endpointMatched mask handle).mem b).map Ppant.handle = (s.mem b).map Ppant.handle := by
  unfold endpointMatched
  cases hl : s.lookup handle with
  | none => rfl
  | some r =>
    have hmem := ((lookup_eq_some_iff hs).mp hl).1
    show ((Function.update s.mem r.1 _) b).map _ = _
    by_cases hb : b = r.1
    · subst hb
      rw [Function.update_self, hmem]
      rfl
    · rw [Function.update_of_ne hb]

theorem ppants_endpointMatched (s : Ppants ι) (mask : UInt32) (handle : UInt64) :
    (s.endpointMatched mask handle).ppants = s.ppants := by
  unfold endpointMatched
  cases s.lookup handle <;> rfl

omit [DecidableEq ι] in
theorem Expires.handle {now : ℤ} (h : Expires now s t) (b : ι) :
    (t.mem b).map Ppant.handle = (s.mem b).map Ppant.handle := by
  rw [h.mem, Option.map_map]
  congr 1
  funext pp
  show (expired now pp).handle = pp.handle
  unfold expired
  split_ifs <;> rfl

omit [DecidableEq ι] in
theorem counted_congr (self : Local) (hp : t.ppants = s.ppants)
    (h : ∀ b, (t.mem b).map Ppant.handle = (s.mem b).map Ppant.handle) :
    t.counted self = s.counted self := by
  rw [counted, counted, hp]
  exact List.countP_congr fun b _ => by rw [countsAt_congr (h b)]

end Counted

end Ppants

end DdsBenchmark.Perf
