import DdsBenchmark.Perf.Discovery

/-! Who gets the pongs of the performance tool. In every state that overlapping listener calls and
requests for writers lead to, a writer that is handed out writes into the partition of the
participant that sent the ping and of no other, and a participant in the tree has a writer unless a
listener call is busy with it. -/

namespace DdsBenchmark.Perf.Discovery

variable {P ι : Type} [DecidableEq P] [DecidableEq ι]

/-- A listener call is busy with taking a record off or with the writer of its participant. -/
def InHand (s : State P ι) (a : ι) (handle : UInt64) : Prop :=
  (∃ p delta, s.callers p = .gone delta a) ∨ ∃ p delta, s.callers p = .creating delta a handle

/-- The table is right, and complete but for the participants in hand. -/
structure Answers (cfg : Setting) (s : State P ι) : Prop where
  routed : Routed cfg.owner cfg.part s.writers s.pongwr
  creating : ∀ p delta a handle, s.callers p = .creating delta a handle → handle ≠ 0
  served : ∀ a pp, s.admin.mem a = some pp → cfg.counts pp.handle →
    InHand s a pp.handle ∨ served s.pongwr pp.handle

section Hand
variable {s : State P ι} {p : P} {pc : CallAt ι} {a : ι} {handle : UInt64}

omit [DecidableEq ι] in
/-- A call that was busy with neither moves on. -/
theorem InHand.move (h : InHand s a handle) (hgone : ∀ delta, s.callers p ≠ .gone delta a)
    (hcreating : ∀ delta, s.callers p ≠ .creating delta a handle) :
    InHand (s.moveCaller p pc) a handle := by
  rcases h with ⟨q, delta, hq⟩ | ⟨q, delta, hq⟩
  · have hne : q ≠ p := fun h => hgone delta (h ▸ hq)
    exact .inl ⟨q, delta, by rw [callers_moveCaller_of_ne hne, hq]⟩
  · have hne : q ≠ p := fun h => hcreating delta (h ▸ hq)
    exact .inr ⟨q, delta, by rw [callers_moveCaller_of_ne hne, hq]⟩

omit [DecidableEq ι] in
theorem InHand.move_of_eq (h : InHand s a handle) {pc' : CallAt ι} (hpc : s.callers p = pc')
    (hgone : ∀ delta, pc' ≠ .gone delta a)
    (hcreating : ∀ delta, pc' ≠ .creating delta a handle) :
    InHand (s.moveCaller p pc) a handle :=
  h.move (fun delta h => hgone delta (hpc.symm.trans h))
    fun delta h => hcreating delta (hpc.symm.trans h)

omit [DecidableEq ι] in
/-- A call that moves on to a place without a writer to make. -/
theorem creating_of_moveCaller {q : P} {delta : UInt32}
    (hpc : ∀ delta, pc ≠ .creating delta a handle)
    (h : (s.moveCaller p pc).callers q = .creating delta a handle) :
    s.callers q = .creating delta a handle := by
  by_cases hq : q = p
  · subst hq
    exact absurd ((callers_moveCaller_self ..).symm.trans h) (hpc delta)
  · exact (callers_moveCaller_of_ne hq).symm.trans h

end Hand

section Answers
variable {cfg : Setting} {s t : State P ι}

omit [DecidableEq P] [DecidableEq ι] in
theorem answers_new (cfg : Setting) : Answers cfg (State.new : State P ι) where
  routed := ⟨by simp [State.new], by simp [State.new], by simp [State.new]⟩
  creating _ _ _ _ h := by cases h
  served _ _ h := by cases h

omit [DecidableEq P] [DecidableEq ι] in
/-- Records are rewritten in their places, with the same handles. -/
theorem Answers.rewrite (hs : Answers cfg s) {admin : Ppants ι}
    (h : ∀ b, (admin.mem b).map Ppant.handle = (s.admin.mem b).map Ppant.handle) :
    Answers cfg { s with admin := admin } where
  routed := hs.routed
  creating := hs.creating
  served a pp hmem hcounts := by
    have hb := h a
    change admin.mem a = some pp at hmem
    rw [hmem, Option.map_some] at hb
    obtain ⟨x, hx, hhandle⟩ := Option.map_eq_some_iff.mp hb.symm
    rw [← hhandle] at hcounts ⊢
    exact hs.served a x hx hcounts

theorem Answers.step (hk : Kept s) (hs : Answers cfg s) {k : Move P} (h : Step cfg s k t) :
    Answers cfg t := by
  cases h with
  | @begin p hpc =>
    refine ⟨hs.routed, fun q d b h hq => ?_, fun a pp hmem hcounts => ?_⟩
    · exact hs.creating q d b h (creating_of_moveCaller (fun _ h => by cases h) hq)
    · exact (hs.served a pp hmem hcounts).imp_left fun hand =>
        hand.move_of_eq hpc (fun _ h => by cases h) fun _ h => by cases h
  | unknown hpc hfree hlookup => exact hs
  | @drop p delta a pp hpc hfree handle hlookup =>
    have hmem := ((Ppants.lookup_eq_some_iff hk.sound).mp hlookup).1
    refine ⟨?_, fun q d b h hq => ?_, fun b x hx hcounts => ?_⟩
    · show Routed _ _ _ (if cfg.counts pp.handle then _ else _)
      split_ifs
      · exact hs.routed.delete pp.handle
      · exact hs.routed
    · exact hs.creating q d b h (creating_of_moveCaller (fun _ h => by cases h) hq)
    · by_cases hb : b = a
      · subst hb
        exact .inl (.inl ⟨p, _, callers_moveCaller_self ..⟩)
      · have hne : x.handle ≠ pp.handle := fun h => hb (hk.sound.index _ _ _ _ hx hmem h)
        refine (hs.served b x hx hcounts).imp (fun hand =>
          hand.move_of_eq hpc (fun _ h => by cases h) fun _ h => by cases h) fun hserved => ?_
        show Perf.served (if cfg.counts pp.handle then _ else _) x.handle
        split_ifs
        · exact (served_deletePongWriter x.handle).mpr ⟨hserved, hne⟩
        · exact hserved
  | @remove p delta a pp hpc hmem =>
    refine ⟨hs.routed, fun q d b h hq => ?_, fun b x hx hcounts => ?_⟩
    · exact hs.creating q d b h (creating_of_moveCaller (fun _ h => by cases h) hq)
    · have hb : b ≠ a := by
        rintro rfl
        cases (Ppants.mem_remove_self ..).symm.trans hx
      have hx' := (Ppants.mem_remove_of_ne hb).symm.trans hx
      exact (hs.served b x hx' hcounts).imp_left fun hand =>
        hand.move_of_eq hpc (fun _ h => hb (CallAt.gone.inj h).2.symm) fun _ h => by cases h
  | other hpc hann => exact hs
  | known hpc hfree hlookup => exact hs
  | @discover p delta handle udata ann rdData now a hpc hhandle hann hfree hlookup hmalloc
      hclock =>
    refine ⟨hs.routed, fun q d b h hq => ?_, fun b x hx hcounts => ?_⟩
    · by_cases hqp : q = p
      · subst hqp
        have hpc' := (callers_moveCaller_self ..).symm.trans hq
        split_ifs at hpc'
        exact (CallAt.creating.inj hpc').2.2 ▸ hhandle
      · exact hs.creating q d b h ((callers_moveCaller_of_ne hqp).symm.trans hq)
    · by_cases hb : b = a
      · subst hb
        obtain rfl := Option.some.inj ((Ppants.mem_insert_self ..).symm.trans hx)
        refine .inl (.inr ⟨p, delta, ?_⟩)
        have hcounts' : cfg.counts handle := hcounts
        exact (callers_moveCaller_self ..).trans (if_pos hcounts')
      · have hx' := (Ppants.mem_insert_of_ne hb).symm.trans hx
        exact (hs.served b x hx' hcounts).imp_left fun hand =>
          hand.move_of_eq hpc (fun _ h => by cases h) fun _ h => by cases h
  | @create p delta a handle pp wr hpc hmem hsame hwr hfresh =>
    have hne := hs.creating p delta a handle hpc
    subst hsame
    refine ⟨hs.routed.add hne hwr hfresh, fun q d b h hq => ?_, fun b x hx hcounts => ?_⟩
    · exact hs.creating q d b h (creating_of_moveCaller (fun _ h => by cases h) hq)
    · by_cases hh : x.handle = pp.handle
      · exact .inr ((served_addPongWriter wr x.handle).mpr (.inr hh))
      · exact (hs.served b x hx hcounts).imp (fun hand =>
          hand.move_of_eq hpc (fun _ h => by cases h) fun _ h =>
            hh (CallAt.creating.inj h).2.2.symm)
          fun hserved => (served_addPongWriter wr x.handle).mpr (.inl hserved)
  | @finish p delta hpc =>
    refine ⟨hs.routed, fun q d b h hq => ?_, fun a pp hmem hcounts => ?_⟩
    · exact hs.creating q d b h (creating_of_moveCaller (fun _ h => by cases h) hq)
    · exact (hs.served a pp hmem hcounts).imp_left fun hand =>
        hand.move_of_eq hpc (fun _ h => by cases h) fun _ h => by cases h
  | @matched mask handle hfree =>
    exact hs.rewrite (Ppants.handle_endpointMatched hk.sound mask handle)
  | @deadlines now hfree => exact hs.rewrite (Ppants.expires_expire hk.sound now).handle
  | @pong pubhandle pphandle hpub hread =>
    exact ⟨hs.routed.get hread, hs.creating, fun a pp hmem hcounts =>
      (hs.served a pp hmem hcounts).imp_right (served_getPongWriterLocked pp.handle).mpr⟩

theorem Reachable.answers (h : Reachable cfg s) : Answers cfg s :=
  (h.invariant (I := fun s => Kept s ∧ Answers cfg s) ⟨kept_new, answers_new cfg⟩
    fun _ _ _ hs hstep => ⟨hs.1.step hstep, hs.2.step hs.1 hstep⟩).2

end Answers

end DdsBenchmark.Perf.Discovery
