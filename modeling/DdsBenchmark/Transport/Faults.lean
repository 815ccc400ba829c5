import DdsBenchmark.Transport.Trace

/-! Failures of the DDS library. A write turns them into an error code. The first topic lets
them out of the interface as exceptions; the transport stays as it was either way. -/

namespace DdsBenchmark.Transport

open Visits
open CycloneTransport (new)

/-- Whether a DDS call that this call makes throws. -/
def Call.ddsFails (t : CycloneTransport) : Call → Bool
  | .createTopic throws _ _ _ => t.impl.isNone && [DdsEntity.participant, .topic, .publisher,
      .subscriber, .writer, .reader].any throws
  | .write throws _ _ => t.impl.any (·.writerCreated) && throws
  | _ => false

/-- The error code of a call. -/
def Call.failure : Call → Reply
  | .write _ _ _ => .code retError none
  | .deleteEntity _ => .done
  | _ => .handle handleInvalid

/-- A call that returns, and that reports a failure of the DDS library by its error code and
keeps the transport as it was. -/
structure Surfaces (t : CycloneTransport) (c : Call) : Prop where
  returns : ∀ e, c.reply t ≠ .threw e
  reports : c.ddsFails t → c.run t = (c.failure, t)

theorem any_entity_iff (throws : DdsEntity → Bool) :
    [DdsEntity.participant, .topic, .publisher, .subscriber, .writer, .reader].any throws = true ↔
      ∃ e, throws e = true := by
  rw [List.any_eq_true]
  refine ⟨fun ⟨e, _, he⟩ => ⟨e, he⟩, fun ⟨e, he⟩ => ⟨e, ?_, he⟩⟩
  cases e <;> simp

/-- Only a topic that constructs the entities lets an exception out. -/
theorem surfaces_iff (t : CycloneTransport) (c : Call) :
    Surfaces t c ↔ ∀ throws participant name typeName,
      c = .createTopic throws participant name typeName → t.impl = none →
        ∀ e, throws e = false := by
  constructor
  · rintro hs throws participant name typeName rfl ht
    obtain ⟨hthrows, -⟩ | ⟨-, e, hrun⟩ :=
      run_createTopic_of_none ht throws participant name typeName
    · exact hthrows
    · exact absurd (congrArg Prod.fst hrun) (hs.returns e)
  · intro h
    cases c with
    | createParticipant domainId => exact ⟨by rintro e ⟨⟩, by rintro ⟨⟩⟩
    | createTopic throws participant name typeName =>
      cases ht : t.impl with
      | some impl =>
        have hrun := run_createTopic_of_some ht throws participant name typeName
        refine ⟨fun e he => ?_, fun hf => ?_⟩
        · rw [Call.reply, hrun] at he
          cases he
        · simp [Call.ddsFails, ht] at hf
      | none =>
        have hthrows := h throws participant name typeName rfl ht
        refine ⟨fun e he => ?_, fun hf => ?_⟩
        · obtain ⟨-, hrun⟩ | ⟨⟨e', he'⟩, -⟩ :=
            run_createTopic_of_none ht throws participant name typeName
          · rw [Call.reply, hrun] at he
            cases he
          · rw [hthrows e'] at he'
            cases he'
        · obtain ⟨e, he⟩ := (any_entity_iff throws).mp (Bool.and_eq_true_iff.mp hf).2
          rw [hthrows e] at he
          cases he
    | createWriter topic => exact ⟨by rintro e ⟨⟩, by rintro ⟨⟩⟩
    | createReader topic => exact ⟨by rintro e ⟨⟩, by rintro ⟨⟩⟩
    | write throws writer data =>
      refine ⟨by rintro e ⟨⟩, fun hf => ?_⟩
      obtain ⟨himpl, hthrows⟩ := Bool.and_eq_true_iff.mp hf
      obtain ⟨impl, ht, hw⟩ := (Option.any_eq_true _ _).mp himpl
      simp [Call.run, CycloneTransport.write, Call.failure, ht, hw, hthrows]
    | deleteEntity entity => exact ⟨by rintro e ⟨⟩, by rintro ⟨⟩⟩

def Call.isCreateTopic : Call → Bool
  | .createTopic _ _ _ _ => true
  | _ => false

section Next
variable {t : CycloneTransport}

/-- Only a topic brings the entities. -/
theorem impl_next_of_not_createTopic (ht : t.impl = none) {c : Call}
    (hc : c.isCreateTopic = false) : (c.next t).impl = none := by
  cases c with
  | createParticipant domainId => exact ht
  | createTopic throws participant name typeName => cases hc
  | createWriter topic => rw [Call.next, run_createWriter_of_none ht]; exact ht
  | createReader topic => rw [Call.next, run_createReader_of_none ht]; exact ht
  | write throws writer data => exact ht
  | deleteEntity entity => exact ht

/-- The entities stay. -/
theorem isSome_impl_next (ht : t.impl.isSome) (c : Call) : (c.next t).impl.isSome := by
  obtain ⟨impl, ht⟩ := Option.isSome_iff_exists.mp ht
  cases c with
  | createParticipant domainId => exact Option.isSome_iff_exists.mpr ⟨impl, ht⟩
  | createTopic throws participant name typeName =>
    rw [Call.next, run_createTopic_of_some ht]
    exact Option.isSome_iff_exists.mpr ⟨impl, ht⟩
  | createWriter topic => rw [Call.next, run_createWriter_of_some ht]; rfl
  | createReader topic => rw [Call.next, run_createReader_of_some ht]; rfl
  | write throws writer data => exact Option.isSome_iff_exists.mpr ⟨impl, ht⟩
  | deleteEntity entity => exact Option.isSome_iff_exists.mpr ⟨impl, ht⟩

/-- With the entities in place every call surfaces. -/
theorem surfaces_of_isSome (ht : t.impl.isSome) (calls : List Call) :
    ∀ v ∈ visits Call.next t calls, Surfaces v.1 v.2 := by
  induction calls generalizing t with
  | nil => exact fun v hv => (nomatch hv)
  | cons c calls ih =>
    refine List.forall_mem_cons.mpr ⟨(surfaces_iff t c).mpr ?_, ih (isSome_impl_next ht c)⟩
    intro _ _ _ _ _ hnone
    rw [hnone] at ht
    cases ht

/-- Without them, all depends on the first topic. -/
theorem surfaces_of_none (ht : t.impl = none) (calls : List Call) :
    (∀ v ∈ visits Call.next t calls, Surfaces v.1 v.2) ↔
      ∀ throws participant name typeName, calls.find? Call.isCreateTopic =
        some (.createTopic throws participant name typeName) → ∀ e, throws e = false := by
  induction calls generalizing t with
  | nil => simp
  | cons c calls ih =>
    rw [visits_cons, List.forall_mem_cons]
    cases hc : c.isCreateTopic with
    | false =>
      have hs : Surfaces t c := by
        refine (surfaces_iff t c).mpr ?_
        rintro _ _ _ _ rfl
        cases hc
      rw [List.find?_cons_of_neg (by simp [hc]), ih (impl_next_of_not_createTopic ht hc)]
      exact and_iff_right hs
    | true =>
      rw [List.find?_cons_of_pos hc, surfaces_iff]
      constructor
      · rintro ⟨hs, -⟩ throws participant name typeName he
        exact hs throws participant name typeName (Option.some.inj he) ht
      · intro h
        refine ⟨fun throws participant name typeName he _ =>
          h throws participant name typeName (congrArg some he), ?_⟩
        cases c with
        | createTopic throws participant name typeName =>
          obtain ⟨-, hrun⟩ | ⟨⟨e, he⟩, -⟩ :=
            run_createTopic_of_none ht throws participant name typeName
          · exact surfaces_of_isSome (by rw [Call.next, hrun]; rfl) calls
          · rw [h throws participant name typeName rfl e] at he
            cases he
        | _ => cases hc

end Next

/-- Every call of a trace surfaces its failures exactly when none of the constructors throws
in the first topic of the trace. -/
theorem all_surface_iff (calls : List Call) :
    (∀ v ∈ visits Call.next new calls, Surfaces v.1 v.2) ↔
      ∀ throws participant name typeName, calls.find? Call.isCreateTopic =
        some (.createTopic throws participant name typeName) → ∀ e, throws e = false :=
  surfaces_of_none rfl calls

/-- The participant cannot be constructed, and the publisher never sees an error code. -/
theorem not_all_surface :
    ¬ ∀ calls : List Call, ∀ v ∈ visits Call.next new calls, Surfaces v.1 v.2 := by
  intro h
  have hs := h [.createParticipant 0,
    .createTopic (fun e => e = .participant) 1 "BM_TalkData" "bm_test::TestData"] _
    (List.mem_cons_of_mem _ List.mem_cons_self)
  exact hs.returns .participant rfl

end DdsBenchmark.Transport
