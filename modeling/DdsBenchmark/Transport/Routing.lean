import DdsBenchmark.Transport.Trace

/-! Where samples go. A sample takes the chain from a participant through a topic and a writer
to a write; what is published carries domain `0` and the name of the first topic, whatever the
chain. -/

namespace DdsBenchmark.Transport

open CycloneTransport (new)

/-- The calls that lead to a write, in this order among the events of a trace: a participant
in a domain, a topic of this name on it, a writer on that, and a write with the writer. -/
def Chain (evs : List (Call × Reply)) (domainId : Int) (name : String) (throws : Bool)
    (data : TestData) (reply : Reply) : Prop :=
  ∃ participant ctorThrows typeName topic writer,
    [(Call.createParticipant domainId, Reply.handle participant),
      (.createTopic ctorThrows participant name typeName, .handle topic),
      (.createWriter topic, .handle writer),
      (.write throws writer data, reply)].Sublist evs

/-- A successful write publishes where the chain that leads to it says. -/
def Routed (evs : List (Call × Reply)) : Prop :=
  ∀ domainId name throws data published,
    Chain evs domainId name throws data (.code retOk published) →
      published = some ⟨domainId, name, data⟩

/-- Every chain to a write that the DDS library accepts starts in domain `0` and goes through
a topic named like the first. -/
def SoleRoute (evs : List (Call × Reply)) : Prop :=
  ∀ domainId name data reply, Chain evs domainId name false data reply →
    domainId = 0 ∧ firstTopic evs = some name

section Chain
variable {calls : List Call} {domainId : Int} {name : String} {throws : Bool} {data : TestData}
  {reply : Reply}

theorem firstTopic_isSome {evs : List (Call × Reply)} {ev : Call × Reply} (h : ev ∈ evs)
    (hev : topicName? ev = some name) : (firstTopic evs).isSome := by
  rw [firstTopic, List.findSome?_isSome_iff]
  exact ⟨ev, h, by rw [hev]; rfl⟩

theorem firstTopic_of_prefix {before : List Call} {first : String}
    (h : firstTopic (events new before) = some first) (later : List Call) :
    firstTopic (events new (before ++ later)) = some first := by
  rw [firstTopic] at h ⊢
  rw [events_append, List.findSome?_append, h, Option.some_or]

/-- A write at the end of a chain publishes in domain `0` under the name of the first topic,
or throws. -/
theorem Chain.reply_eq (h : Chain (events new calls) domainId name throws data reply) :
    ∃ first, firstTopic (events new calls) = some first ∧
      reply = if throws then .code retError none else .code retOk (some ⟨0, first, data⟩) := by
  obtain ⟨participant, ctorThrows, typeName, topic, writer, hsub⟩ := h
  -- the events before the write, and among them those before the writer
  obtain ⟨before, later, rfl, hbefore, rfl⟩ := concat_sublist_events
    (show ([_, _, _] ++ [(Call.write throws writer data, reply)]).Sublist _ from hsub)
  obtain ⟨earlier, rest, rfl, hearlier, hwriter⟩ := concat_sublist_events
    (show ([_, _] ++ [(Call.createWriter topic, Reply.handle writer)]).Sublist _ from hbefore)
  have htopic := firstTopic_isSome (hearlier.subset (List.mem_cons_of_mem _ List.mem_cons_self)) rfl
  have hmade : (events new (earlier ++ .createWriter topic :: rest)).any madeWriter = true := by
    rw [(reflects_after earlier).createWriter_reply, if_pos htopic] at hwriter
    obtain rfl := Reply.handle.inj hwriter
    exact List.any_eq_true.mpr
      ⟨_, hbefore.subset (List.mem_cons_of_mem _ (List.mem_cons_of_mem _ List.mem_cons_self)), rfl⟩
  obtain ⟨first, hfirst⟩ := Option.isSome_iff_exists.mp htopic
  have hfirst := firstTopic_of_prefix hfirst (.createWriter topic :: rest)
  exact ⟨first, firstTopic_of_prefix hfirst _,
    (reflects_after _).write_reply hfirst hmade throws writer data⟩

end Chain

/-- The samples of a trace go where their chains say exactly when these all say domain `0` and
the name of the first topic. -/
theorem routed_iff (calls : List Call) :
    Routed (events new calls) ↔ SoleRoute (events new calls) := by
  constructor
  · intro h domainId name data reply hchain
    obtain ⟨first, hfirst, rfl⟩ := hchain.reply_eq
    obtain ⟨rfl, rfl, -⟩ := Sample.mk.inj (Option.some.inj (h domainId name false data _ hchain))
    exact ⟨rfl, hfirst⟩
  · intro h domainId name throws data published hchain
    obtain ⟨first, hfirst, hreply⟩ := hchain.reply_eq
    cases throws with
    | true => exact absurd (Reply.code.inj hreply).1 (by decide)
    | false =>
      obtain ⟨rfl, hname⟩ := h domainId name data _ hchain
      obtain rfl := Option.some.inj (hfirst.symm.trans hname)
      exact (Reply.code.inj hreply).2

/-- A publisher in domain `7` publishes in domain `0`. -/
theorem not_routed : ¬ ∀ calls, Routed (events new calls) := by
  intro h
  have hrouted := h [.createParticipant 7,
    .createTopic (fun _ => false) 1 "BM_TalkData" "bm_test::TestData", .createWriter 2,
    .write false 1 ⟨1, 0, "test"⟩] 7 "BM_TalkData" false ⟨1, 0, "test"⟩
    (some ⟨0, "BM_TalkData", ⟨1, 0, "test"⟩⟩)
    ⟨1, fun _ => false, "bm_test::TestData", 2, 1, List.Sublist.refl _⟩
  exact absurd hrouted (by decide)

end DdsBenchmark.Transport
