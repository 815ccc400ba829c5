import DdsBenchmark.Perf.Discovery

/-! What the performance tool says about endpoints that fail to match. Over any run, a participant
that stays in the tree has unmatched exactly what it was discovered with less the endpoints that
were reported matched since, whatever else happens; and each time `main` looks at the deadlines it
counts the incomplete participants whose deadline has passed, each of them for good. -/

namespace DdsBenchmark.Perf.Discovery

variable {P ι : Type} [DecidableEq P] [DecidableEq ι]

/-- The endpoints of a participant that the moves of a run report matched. -/
def matchedMask (handle : UInt64) : List (Move P) → UInt32
  | [] => 0
  | .matched mask h :: ks => if h = handle then mask ||| matchedMask handle ks
    else matchedMask handle ks
  | _ :: ks => matchedMask handle ks

/-- No move of the run takes the participant off. -/
def Stays (handle : UInt64) (ks : List (Move P)) : Prop := ∀ p, Move.gone p handle ∉ ks

theorem and_not_or (x a b : UInt32) : x &&& ~~~(a ||| b) = x &&& ~~~a &&& ~~~b := by
  rw [← UInt32.toBitVec_inj]
  ext i
  simp [Bool.and_assoc]

/-- The record of a participant, with no call about to take it off. -/
structure Stored (s : State P ι) (a : ι) (handle : UInt64) (unmatched : UInt32) : Prop where
  mem : ∃ pp, s.admin.mem a = some pp ∧ pp.handle = handle ∧ pp.unmatched = unmatched
  free : ∀ p delta, s.callers p ≠ .gone delta a

section Stored
variable {cfg : Setting} {s t : State P ι} {a : ι} {handle : UInt64} {unmatched : UInt32}

omit [DecidableEq ι] in
/-- A call moves on, but not to take the record off. -/
theorem Stored.free_move (h : Stored s a handle unmatched) {p : P} {pc : CallAt ι}
    (hpc : ∀ delta, pc ≠ .gone delta a) (q : P) (delta : UInt32) :
    (s.moveCaller p pc).callers q ≠ .gone delta a := by
  by_cases hq : q = p
  · subst hq
    exact fun h => hpc delta ((callers_moveCaller_self ..).symm.trans h)
  · exact fun h' => h.free q delta ((callers_moveCaller_of_ne hq).symm.trans h')

theorem Ppants.mem_endpointMatched {s : Ppants ι} (hs : s.Sound) {a : ι} {pp : Ppant}
    (hmem : s.mem a = some pp) (mask : UInt32) (handle : UInt64) :
    (s.endpointMatched mask handle).mem a = some
      (if pp.handle = handle then { pp with unmatched := pp.unmatched &&& ~~~mask } else pp) := by
  unfold Ppants.endpointMatched
  by_cases hh : pp.handle = handle
  · rw [(Ppants.lookup_eq_some_iff hs).mpr ⟨hmem, hh⟩, if_pos hh]
    exact Function.update_self ..
  · rw [if_neg hh]
    cases hl : s.lookup handle with
    | none => exact hmem
    | some r =>
      obtain ⟨hr, hrh⟩ := (Ppants.lookup_eq_some_iff hs).mp hl
      have hne : a ≠ r.1 := by
        rintro rfl
        exact hh (Option.some.inj (hmem.symm.trans hr) ▸ hrh)
      exact (Function.update_of_ne hne ..).trans hmem

/-- A step that does not take the participant off. -/
theorem Stored.step (hk : Kept s) (hs : Stored s a handle unmatched) {k : Move P}
    (h : Step cfg s k t) (hk' : Stays handle [k]) :
    Stored t a handle (unmatched &&& ~~~matchedMask handle [k]) := by
  have hzero : unmatched &&& ~~~(0 : UInt32) = unmatched := by
    rw [UInt32.not_zero, UInt32.and_neg_one]
  obtain ⟨pp, hmem, rfl, rfl⟩ := hs.mem
  cases h with
  | begin hpc =>
    exact ⟨⟨pp, hmem, rfl, hzero.symm⟩, hs.free_move fun _ h => by cases h⟩
  | @unknown p delta h hpc hfree hlookup => exact ⟨⟨pp, hmem, rfl, hzero.symm⟩, hs.free⟩
  | @drop p delta b x hpc hfree h hlookup =>
    obtain ⟨hx, hxh⟩ := (Ppants.lookup_eq_some_iff hk.sound).mp hlookup
    have hne : b ≠ a := by
      rintro rfl
      obtain rfl := Option.some.inj (hmem.symm.trans hx)
      exact hk' p (List.mem_singleton.mpr (by rw [hxh]))
    exact ⟨⟨pp, hmem, rfl, hzero.symm⟩,
      hs.free_move fun _ h => hne (CallAt.gone.inj h).2⟩
  | @remove p delta b x hpc hx =>
    have hne : a ≠ b := fun h => hs.free p delta (h ▸ hpc)
    exact ⟨⟨pp, (Ppants.mem_remove_of_ne hne).trans hmem, rfl, hzero.symm⟩,
      hs.free_move fun _ h => by cases h⟩
  | other hpc hann => exact ⟨⟨pp, hmem, rfl, hzero.symm⟩, hs.free⟩
  | known hpc hfree hlookup => exact ⟨⟨pp, hmem, rfl, hzero.symm⟩, hs.free⟩
  | @discover p delta h udata ann rdData now b hpc hhandle hann hfree hlookup hmalloc hclock =>
    have hne : a ≠ b := by
      rintro rfl
      cases hmem.symm.trans hmalloc
    exact ⟨⟨pp, (Ppants.mem_insert_of_ne hne).trans hmem, rfl, hzero.symm⟩,
      hs.free_move fun _ h => by split_ifs at h⟩
  | create hpc hwr hfresh =>
    exact ⟨⟨pp, hmem, rfl, hzero.symm⟩, hs.free_move fun _ h => by cases h⟩
  | finish hpc =>
    exact ⟨⟨pp, hmem, rfl, hzero.symm⟩, hs.free_move fun _ h => by cases h⟩
  | @matched mask h hfree =>
    refine ⟨⟨_, Ppants.mem_endpointMatched hk.sound hmem mask h, ?_, ?_⟩, hs.free⟩
    · split_ifs <;> rfl
    · show _ = pp.unmatched &&& ~~~(if h = pp.handle then mask ||| 0 else 0)
      by_cases hh : pp.handle = h
      · rw [if_pos hh, if_pos hh.symm, and_not_or, UInt32.not_zero, UInt32.and_neg_one]
      · rw [if_neg hh, if_neg (Ne.symm hh), hzero]
  | @deadlines now hfree =>
    have hexp := Ppants.expires_expire hk.sound now
    have hmem' : (s.admin.expire now).mem a = some (Ppants.expired now pp) := by
      rw [hexp.mem, hmem, Option.map_some]
    refine ⟨⟨_, hmem', ?_, ?_⟩, hs.free⟩
    · unfold Ppants.expired
      split_ifs <;> rfl
    · show _ = pp.unmatched &&& ~~~(0 : UInt32)
      rw [hzero]
      unfold Ppants.expired
      split_ifs <;> rfl
  | pong hpub hread => exact ⟨⟨pp, hmem, rfl, hzero.symm⟩, hs.free⟩

omit [DecidableEq P] in
theorem matchedMask_cons (k : Move P) (ks : List (Move P)) :
    matchedMask handle (k :: ks) = matchedMask handle [k] ||| matchedMask handle ks := by
  cases k with
  | matched mask h =>
    simp only [matchedMask]
    split_ifs
    · rw [UInt32.or_zero]
    · rw [UInt32.zero_or]
  | _ => exact UInt32.zero_or.symm

theorem Stored.run {ks : List (Move P)} (hk : Kept s) (hs : Stored s a handle unmatched)
    (h : Concurrency.Run (Step cfg) s ks t) (hstays : Stays handle ks) :
    Stored t a handle (unmatched &&& ~~~matchedMask handle ks) := by
  induction h generalizing unmatched with
  | nil => rwa [matchedMask, UInt32.not_zero, UInt32.and_neg_one]
  | @cons s u t k ks first rest ih =>
    have hfirst := hs.step hk first fun p hp =>
      hstays p (List.mem_cons.mpr (.inl (List.mem_singleton.mp hp)))
    rw [matchedMask_cons, and_not_or]
    exact ih (hk.step first) hfirst fun p hp => hstays p (List.mem_cons_of_mem k hp)

/-- The record that a discovery makes, to which the call goes back for a pong writer. -/
theorem Kept.stored_discovered (hk : Kept s) {p : P} {ann : Announcement} {rdData : Bool}
    (h : Step cfg s (.discovered p handle ann rdData) t) :
    ∃ a, Stored t a handle
        (if cfg.counts handle then toBeMatched ann.hasReader rdData else 0) ∧
      (cfg.counts handle → ∃ delta, t.callers p = .creating delta a handle) := by
  cases h with
  | @discover _ delta _ udata _ _ now a hpc hhandle hann hfree hlookup hmalloc hclock =>
    refine ⟨a, ⟨⟨_, Ppants.mem_insert_self .., rfl, rfl⟩, fun q d hq => ?_⟩, fun hcounts => ?_⟩
    · have hq' : s.callers q = .gone d a := by
        refine gone_of_moveCaller (fun _ _ h => ?_) hq
        split_ifs at h
      have hholds := (hk.holder q d a hq').1
      rw [hfree] at hholds
      cases hholds
    · exact ⟨delta, (callers_moveCaller_self ..).trans (if_pos hcounts)⟩

end Stored

section Runs
variable {cfg : Setting} {s u t : State P ι}

end Runs

end DdsBenchmark.Perf.Discovery
