import Mathlib.Tactic.Ring
import DdsBenchmark.Publisher.Accounting
import DdsBenchmark.Stream.Pacing

/-! How fast the publisher goes. Whatever the work, the snapshots and the scheduler take, two
messages in a row start at least one interval apart. The interval is the period of the rate
rounded down to whole milliseconds, so it keeps to the rate exactly when nothing is rounded
away. -/

namespace DdsBenchmark.Publisher

open Cputime Transport Visits Pacing

/-- The starts keep to the rate: a row of `W` messages spans `W - 1` periods, and a window of
`T` seconds holds at most `1 + rate * T` starts. -/
structure WithinRate (rate : ℤ) (starts : List ℕ) : Prop where
  spread : ∀ (i W first last : ℕ), 1 ≤ W → starts[i]? = some first →
    starts[i + (W - 1)]? = some last →
    ((W : ℚ) - 1) * 10 ^ 9 / rate ≤ (last : ℚ) - first
  count : ∀ start T : ℚ, 0 ≤ T →
    ((starts.filter fun x : ℕ => start ≤ (x : ℚ) ∧ (x : ℚ) ≤ start + T * 10 ^ 9).length : ℚ) ≤
      1 + rate * T

def PublisherRun.starts (run : PublisherRun) : List ℕ := run.messages.map (·.loopStart)

section Spacing
variable (pub : Setup)

/-- The next pass begins an interval later or more. -/
theorem add_intervalNs_le_now (hrate : 0 < pub.opts.rate) (s : LoopState) (pass : Pass) :
    Setup.loopStart s pass + pub.opts.intervalNs ≤ (pub.next s pass).now := by
  have hrested : Setup.loopStart s pass + pub.opts.intervalNs ≤ pub.rested s pass := by
    have hworked : Setup.loopStart s pass ≤ pub.worked s pass := by
      unfold Setup.worked
      omega
    unfold Setup.rested
    dsimp only
    split_ifs <;> omega
  change _ ≤ pub.checked s pass
  unfold Setup.checked
  split_ifs <;> omega

/-- The starts of the passes are an interval apart, none before the clock of the state. -/
theorem spaced_visits (hrate : 0 < pub.opts.rate) (s : LoopState) (passes : List Pass) :
    (∀ v ∈ visits pub.next s passes, s.now ≤ Setup.loopStart v.1 v.2) ∧
      Spaced pub.opts.intervalNs
        ((visits pub.next s passes).map fun v => Setup.loopStart v.1 v.2) := by
  induction passes generalizing s with
  | nil => exact ⟨by simp, List.Pairwise.nil⟩
  | cons pass passes ih =>
    obtain ⟨hle, hspaced⟩ := ih (pub.next s pass)
    have hnow := add_intervalNs_le_now pub hrate s pass
    have hstart : s.now ≤ Setup.loopStart s pass := Nat.le_add_right _ _
    rw [visits_cons, List.map_cons]
    refine ⟨?_, List.pairwise_cons.mpr ⟨?_, hspaced⟩⟩
    · intro v hv
      rcases List.mem_cons.mp hv with rfl | hv
      · exact hstart
      · have := hle v hv
        omega
    · intro x hx
      obtain ⟨v, hv, rfl⟩ := List.mem_map.mp hx
      exact hnow.trans (hle v hv)

end Spacing

/-- The messages of a run start an interval apart. -/
theorem spaced_starts {opts : Options} {env : Environment} {run : PublisherRun}
    (hrate : 0 < opts.rate) (hrun : runPublisher opts env = .ran run) :
    Spaced opts.intervalNs run.starts := by
  obtain ⟨-, rfl⟩ := (runPublisher_eq_ran_iff _ _ _).mp hrun
  rw [PublisherRun.starts, messages_eq, List.map_map]
  exact (spaced_visits (looping opts env) hrate (initial env) _).2

/-- Starts a period apart keep to the rate. -/
theorem withinRate_of_spaced {rate : ℤ} {starts : List ℕ} {d : ℕ} (hrate : 0 < rate)
    (hd : (10 : ℚ) ^ 9 / rate ≤ d) (h : Spaced d starts) : WithinRate rate starts := by
  have hrate' : (0 : ℚ) < rate := by exact_mod_cast hrate
  have hspaced : Spaced ((10 : ℚ) ^ 9 / rate) (starts.map Nat.cast) := (h.natCast).mono hd
  constructor
  · intro i W first last hW hi hlast
    have hi' : (starts.map (Nat.cast : ℕ → ℚ))[i]? = some (first : ℚ) := by
      rw [List.getElem?_map, hi, Option.map_some]
    have hlast' : (starts.map (Nat.cast : ℕ → ℚ))[i + (W - 1)]? = some (last : ℚ) := by
      rw [List.getElem?_map, hlast, Option.map_some]
    have hspread := hspaced.spread hi' hlast'
    rw [nsmul_eq_mul, Nat.cast_sub hW, Nat.cast_one] at hspread
    rw [mul_div_assoc]
    linarith
  · intro start T hT
    have hle : start ≤ start + T * 10 ^ 9 := le_add_of_nonneg_right (by positivity)
    have hcount := hspaced.length_filter_le (by positivity) hle
    rw [List.filter_map, List.length_map] at hcount
    refine hcount.trans_eq ?_
    field_simp
    ring

/-- The interval is no shorter than the period of the rate exactly when the rate divides
`1000`. -/
theorem period_le_intervalNs_iff {opts : Options} (hrate : 0 < opts.rate) :
    (10 : ℚ) ^ 9 / opts.rate ≤ opts.intervalNs ↔ opts.rate ∣ 1000 := by
  have hrate' : (0 : ℚ) < opts.rate := by exact_mod_cast hrate
  have hq : 0 ≤ 1000 / opts.rate := Int.ediv_nonneg (by norm_num) hrate.le
  have hcast : (opts.intervalNs : ℚ) = ((1000 / opts.rate : ℤ) : ℚ) * 1000000 := by
    rw [Options.intervalNs, if_pos hrate, Nat.cast_mul]
    congr 1
    exact_mod_cast Int.toNat_of_nonneg hq
  have hle : (10 : ℚ) ^ 9 / opts.rate ≤ opts.intervalNs ↔
      1000 ≤ 1000 / opts.rate * opts.rate := by
    rw [hcast, div_le_iff₀ hrate', ← Int.cast_le (R := ℚ), Int.cast_mul]
    constructor <;> intro h <;> push_cast at h ⊢ <;> linarith
  rw [hle]
  constructor
  · intro h
    have := Int.ediv_mul_le 1000 hrate.ne'
    exact Dvd.intro_left _ (le_antisymm this h)
  · intro h
    rw [Int.ediv_mul_cancel h]

/-! ### Passes that take no time -/

theorem checked_promptPass (pub : Setup) (hrate : 0 < pub.opts.rate) (s : LoopState)
    (ddsThrows : Bool) :
    pub.checked s (promptPass ddsThrows) = s.now + pub.opts.intervalNs := by
  have hstart : Setup.loopStart s (promptPass ddsThrows) = s.now := rfl
  have hworked : pub.worked s (promptPass ddsThrows) = s.now := by
    rw [Setup.worked, hstart]
    split_ifs <;> rfl
  have hrested : pub.rested s (promptPass ddsThrows) = s.now + pub.opts.intervalNs := by
    rw [Setup.rested, hworked, hstart, Nat.sub_self, Nat.sub_zero]
    split_ifs with hlt
    · rfl
    · rw [Nat.eq_zero_of_not_pos fun hpos => hlt ⟨hrate, hpos⟩, Nat.add_zero]
  rw [Setup.checked, hrested]
  split_ifs <;> rfl

/-- Apart from the rate `1` the interval is shorter than a second. -/
theorem intervalNs_lt {opts : Options} (hrate : 0 < opts.rate) (hone : opts.rate ≠ 1) :
    opts.intervalNs < 1000000000 := by
  have hq : 0 ≤ 1000 / opts.rate := Int.ediv_nonneg (by norm_num) hrate.le
  have hle : 1000 / opts.rate * 2 ≤ 1000 :=
    (mul_le_mul_of_nonneg_left (by omega) hq).trans (Int.ediv_mul_le 1000 hrate.ne')
  rw [Options.intervalNs, if_pos hrate]
  omega

theorem timeUp_promptPass {opts : Options} (hrate : 0 < opts.rate) (hone : opts.rate ≠ 1)
    (passes : List Bool) (ddsThrows : Bool) :
    (looping opts (promptEnvironment passes)).timeUp (initial (promptEnvironment passes))
      (promptPass ddsThrows) = false := by
  have hlt := intervalNs_lt hrate hone
  rw [Setup.timeUp, checked_promptPass _ hrate, decide_eq_false_iff_not]
  rintro ⟨hpos, hle⟩
  change (((0 + opts.intervalNs - 0) / 1000000000 : ℕ) : ℤ) ≥ opts.runTime at hle
  change opts.runTime > 0 at hpos
  rw [Nat.zero_add, Nat.sub_zero, Nat.div_eq_of_lt hlt] at hle
  omega

/-- Two messages whose passes take no time start one interval apart. -/
theorem starts_prompt {opts : Options} (hrate : 0 < opts.rate) (hone : opts.rate ≠ 1)
    {run : PublisherRun}
    (hrun : runPublisher opts (promptEnvironment [false, false]) = .ran run) :
    run.starts[0]? = some 0 ∧ run.starts[1]? = some opts.intervalNs := by
  obtain ⟨-, rfl⟩ := (runPublisher_eq_ran_iff _ _ _).mp hrun
  let pub := looping opts (promptEnvironment [false, false])
  let s := initial (promptEnvironment [false, false])
  obtain ⟨rest, hmessages⟩ : ∃ rest,
      (publisherLoop pub s (promptEnvironment [false, false]).passes).messages =
        pub.message s (promptPass false) ::
          pub.message (pub.next s (promptPass false)) (promptPass false) :: rest := by
    change ∃ rest, (publisherLoop pub s (promptPass false :: promptPass false :: _)).messages = _
    rw [messages_cons rfl, timeUp_promptPass hrate hone, if_neg Bool.false_ne_true,
      messages_cons rfl]
    exact ⟨_, rfl⟩
  rw [PublisherRun.starts, hmessages]
  refine ⟨rfl, ?_⟩
  change some (Setup.checked _ _ _ + 0) = _
  rw [checked_promptPass _ hrate]
  exact congrArg some (Nat.zero_add _)

/-- The publisher keeps to the requested rate, whatever takes time, exactly when the rate
divides `1000`. -/
theorem withinRate_iff (opts : Options) (hrate : 0 < opts.rate) :
    (∀ (env : Environment) (run : PublisherRun), runPublisher opts env = .ran run →
      WithinRate opts.rate run.starts) ↔ opts.rate ∣ 1000 := by
  constructor
  · intro h
    by_cases hone : opts.rate = 1
    · rw [hone]
      exact one_dvd _
    · have hrun := runPublisher_prompt opts [false, false]
      obtain ⟨h₀, h₁⟩ := starts_prompt hrate hone hrun
      have hspread := (h _ _ hrun).spread 0 2 0 opts.intervalNs (by norm_num) h₀ h₁
      rw [← period_le_intervalNs_iff hrate]
      norm_num at hspread ⊢
      exact hspread
  · intro hdvd env run hrun
    exact withinRate_of_spaced hrate ((period_le_intervalNs_iff hrate).mpr hdvd)
      (spaced_starts hrate hrun)

/-- Three messages at 250 a second. -/
theorem withinRate_250 : WithinRate 250
    (publisherLoop (looping { rate := 250 } (promptEnvironment [false, false, false]))
      (initial (promptEnvironment [false, false, false]))
      (promptEnvironment [false, false, false]).passes).starts :=
  (withinRate_iff { rate := 250 } (by decide)).mpr (by decide) _ _ (runPublisher_prompt _ _)

/-- At 3 messages a second the second message comes 333 milliseconds after the first. -/
theorem not_withinRate :
    ¬ ∀ (opts : Options) (env : Environment) (run : PublisherRun), 0 < opts.rate →
      runPublisher opts env = .ran run → WithinRate opts.rate run.starts := by
  intro h
  have hw := h { rate := 3 } (promptEnvironment [false, false]) _ (by decide)
    (runPublisher_prompt _ _)
  have hspread := hw.spread 0 2 0 333000000 (by norm_num) rfl rfl
  norm_num at hspread

end DdsBenchmark.Publisher
