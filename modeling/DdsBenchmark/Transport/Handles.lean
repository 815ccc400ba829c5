import Mathlib.Algebra.Ring.Nat
import Mathlib.Data.List.Nodup
import DdsBenchmark.Transport.Trace

/-! The handles of a transport. Participants and topics are numbered by one counter; the one
writer and the one reader are both the handle `1`, which is also the first number. A write
looks at no handle: it succeeds once a writer has been created. Nothing is ever deleted. -/

namespace DdsBenchmark.Transport

open CycloneTransport (new)

section Counter
variable {m n : ℕ}

theorem toInt_counterValue (hn : n < 2 ^ 31 - 1) : (counterValue n).toInt = n + 1 :=
  Int32.toInt_ofNat_of_lt (by omega)

theorem counterValue_pos (hn : n < 2 ^ 31 - 1) : 0 < counterValue n := by
  rw [Int32.lt_iff_toInt_lt, toInt_counterValue hn, Int32.toInt_zero]
  omega

theorem counterValue_inj (hm : m < 2 ^ 31 - 1) (hn : n < 2 ^ 31 - 1)
    (h : counterValue m = counterValue n) : m = n := by
  have hh := congrArg Int32.toInt h
  rw [toInt_counterValue hm, toInt_counterValue hn] at hh
  omega

theorem nodup_map_counterValue (hn : n < 2 ^ 31 - 1) :
    ((List.range n).map counterValue).Nodup := by
  refine List.Nodup.map_on (fun i hi j hj => ?_) List.nodup_range
  have hi := List.mem_range.mp hi
  have hj := List.mem_range.mp hj
  exact counterValue_inj (by omega) (by omega)

end Counter

/-- The handles drawn from the counter in a trace. -/
def counterHandles (calls : List Call) : List Handle :=
  (events new calls).filterMap counterHandle?

/-- How a transport treats handles after a trace of calls. -/
structure HandleDiscipline (calls : List Call) : Prop where
  counter : counterHandles calls = (List.range (counterHandles calls).length).map counterValue
  distinct : (counterHandles calls).length < 2 ^ 31 - 1 → (counterHandles calls).Nodup
  valid : (counterHandles calls).length < 2 ^ 31 - 1 →
    ∀ c h, (c, Reply.handle h) ∈ events new calls → h = handleInvalid ∨ 0 < h
  createWriter : ∀ topic, (Call.createWriter topic).reply (after new calls) =
    .handle (if (firstTopic (events new calls)).isSome then 1 else handleInvalid)
  createReader : ∀ topic, (Call.createReader topic).reply (after new calls) =
    .handle (if (firstTopic (events new calls)).isSome then 1 else handleInvalid)
  write : ∀ throws writer data,
    (∃ published, (Call.write throws writer data).reply (after new calls) =
      .code retOk published) ↔ throws = false ∧ (events new calls).any madeWriter
  deleteEntity : ∀ entity,
    (Call.deleteEntity entity).run (after new calls) = (.done, after new calls)

/-- A handle comes from the counter, or it is the constant of the writer and the reader. -/
theorem handle_cases {calls : List Call} {c : Call} {h : Handle}
    (hev : (c, Reply.handle h) ∈ events new calls) :
    h ∈ counterHandles calls ∨ h = handleInvalid ∨ h = 1 := by
  obtain ⟨before, _, -, -, hreply⟩ := concat_sublist_events
    (show ([] ++ [(c, Reply.handle h)]).Sublist _ from List.singleton_sublist.mpr hev)
  have hconst : ∀ b : Bool, Reply.handle h = .handle (if b then 1 else handleInvalid) →
      h = handleInvalid ∨ h = 1 := by
    intro b hb
    cases b
    · exact Or.inl (Reply.handle.inj hb)
    · exact Or.inr (Reply.handle.inj hb)
  cases c with
  | createParticipant domainId => exact Or.inl (List.mem_filterMap.mpr ⟨_, hev, rfl⟩)
  | createTopic throws participant name typeName =>
    exact Or.inl (List.mem_filterMap.mpr ⟨_, hev, rfl⟩)
  | createWriter topic =>
    exact Or.inr (hconst _ (hreply.trans ((reflects_after before).createWriter_reply topic)))
  | createReader topic =>
    exact Or.inr (hconst _ (hreply.trans ((reflects_after before).createReader_reply topic)))
  | write throws writer data => cases hreply
  | deleteEntity entity => cases hreply

/-- Numbers are handed out in order and stay different while they fit a handle; the writer and
the reader share a constant; a write needs a writer, not its handle; deleting does nothing. -/
theorem handleDiscipline (calls : List Call) : HandleDiscipline calls where
  counter := (reflects_after calls).handles
  distinct hn := by
    rw [show counterHandles calls = _ from (reflects_after calls).handles]
    exact nodup_map_counterValue hn
  valid hn c h hev := by
    obtain hmem | hmem | rfl := handle_cases hev
    · rw [show counterHandles calls = _ from (reflects_after calls).handles] at hmem
      obtain ⟨i, hi, rfl⟩ := List.mem_map.mp hmem
      have hi := List.mem_range.mp hi
      exact Or.inr (counterValue_pos (Nat.lt_trans hi hn))
    · exact Or.inl hmem
    · exact Or.inr (by decide)
  createWriter := (reflects_after calls).createWriter_reply
  createReader := (reflects_after calls).createReader_reply
  write := (reflects_after calls).write_ok_iff
  deleteEntity _ := rfl

/-- The handles that calls of a kind returned and that have not been deleted since. -/
def liveHandles (kind : Call → Bool) (evs : List (Call × Reply)) : List Handle :=
  evs.foldl (fun live ev => match ev with
    | (.deleteEntity e, _) => live.filter (· ≠ e)
    | (c, .handle h) => if kind c ∧ h ≠ handleInvalid then h :: live else live
    | _ => live) []

def Call.isCreateWriter : Call → Bool
  | .createWriter _ => true
  | _ => false

/-- The writer of the first topic has the handle of the participant; and once there is a writer,
a write succeeds through a handle that no call ever returned. -/
theorem not_distinct_live_handles :
    (¬ ∀ (calls : List Call) (c : Call) (h : Handle), c.reply (after new calls) = .handle h →
      h = handleInvalid ∨ 0 ≤ h ∧ h ∉ liveHandles (fun _ => true) (events new calls)) ∧
    ¬ ∀ (calls : List Call) (throws : Bool) (writer : Handle) (data : TestData)
      (published : Option Sample),
      (Call.write throws writer data).reply (after new calls) = .code retOk published →
      writer ∈ liveHandles Call.isCreateWriter (events new calls) := by
  constructor
  · intro h
    have hlive := h [.createParticipant 0,
      .createTopic (fun _ => false) 1 "BM_TalkData" "bm_test::TestData"] (.createWriter 2) 1 rfl
    exact absurd hlive (by decide)
  · intro h
    have hlive := h [.createTopic (fun _ => false) 1 "BM_TalkData" "bm_test::TestData",
      .createWriter 1] false 99 ⟨1, 0, ""⟩ _ rfl
    exact absurd hlive (by decide)

end DdsBenchmark.Transport
