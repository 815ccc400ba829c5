import Mathlib.Data.List.Basic
import DdsBenchmark.Stream.Visits
import DdsBenchmark.Transport.Cyclone

/-! Traces of calls on one transport. Each call comes with the DDS calls that throw during it,
and each is answered, by a handle, a code, nothing, or an exception that leaves the interface.
The entities appear with the first topic that can be created and stay as they are from then
on, save that a writer and a reader are marked on them. -/

namespace DdsBenchmark.Transport

open Visits

/-- A call of the transport interface, with what the DDS library does in it. -/
inductive Call where
  | createParticipant (domainId : Int)
  | createTopic (throws : DdsEntity → Bool) (participant : Handle) (name typeName : String)
  | createWriter (topic : Handle)
  | createReader (topic : Handle)
  | write (throws : Bool) (writer : Handle) (data : TestData)
  | deleteEntity (entity : Handle)

/-- How a call ends; a code comes with the sample that was published. -/
inductive Reply where
  | handle (h : Handle)
  | code (ret : Int32) (published : Option Sample)
  | done
  | threw (e : DdsEntity)
  deriving DecidableEq

/-- One call; an exception leaves the transport as it was. -/
def Call.run (t : CycloneTransport) : Call → Reply × CycloneTransport
  | .createParticipant domainId =>
    (.handle (t.createParticipant domainId).1, (t.createParticipant domainId).2)
  | .createTopic throws participant name typeName =>
    match t.createTopic throws participant name typeName with
    | .error e => (.threw e, t)
    | .ok (h, t) => (.handle h, t)
  | .createWriter topic => (.handle (t.createWriter topic).1, (t.createWriter topic).2)
  | .createReader topic => (.handle (t.createReader topic).1, (t.createReader topic).2)
  | .write throws writer data =>
    (.code (t.write throws writer data).1 (t.write throws writer data).2, t)
  | .deleteEntity entity => (.done, t.deleteEntity entity)

def Call.reply (t : CycloneTransport) (c : Call) : Reply := (c.run t).1

def Call.next (t : CycloneTransport) (c : Call) : CycloneTransport := (c.run t).2

/-- A transport after a trace of calls. -/
def after (t : CycloneTransport) (calls : List Call) : CycloneTransport := calls.foldl Call.next t

/-- The calls of a trace with their replies. -/
def events (t : CycloneTransport) (calls : List Call) : List (Call × Reply) :=
  (visits Call.next t calls).map fun v => (v.2, v.2.reply v.1)

@[simp] theorem after_nil (t : CycloneTransport) : after t [] = t := rfl

@[simp] theorem after_cons (t : CycloneTransport) (c : Call) (calls : List Call) :
    after t (c :: calls) = after (c.next t) calls := rfl

@[simp] theorem events_nil (t : CycloneTransport) : events t [] = [] := rfl

@[simp] theorem events_cons (t : CycloneTransport) (c : Call) (calls : List Call) :
    events t (c :: calls) = (c, c.reply t) :: events (c.next t) calls := rfl

theorem events_append (t : CycloneTransport) (xs ys : List Call) :
    events t (xs ++ ys) = events t xs ++ events (after t xs) ys := by
  induction xs generalizing t with
  | nil => rfl
  | cons x xs ih => exact congrArg _ (ih (x.next t))

/-- An event of a trace is a call in the state that the calls before it lead to. -/
theorem events_eq_append_cons {t : CycloneTransport} {calls : List Call} {ev : Call × Reply}
    {xs ys : List (Call × Reply)} (h : events t calls = xs ++ ev :: ys) :
    ∃ before later, calls = before ++ ev.1 :: later ∧ events t before = xs ∧
      ev.2 = ev.1.reply (after t before) := by
  induction xs generalizing t calls with
  | nil =>
    cases calls with
    | nil => cases h
    | cons c calls =>
      obtain ⟨rfl, -⟩ := List.cons.inj h
      exact ⟨[], calls, rfl, rfl, rfl⟩
  | cons x xs ih =>
    cases calls with
    | nil => cases h
    | cons c calls =>
      obtain ⟨rfl, hrest⟩ := List.cons.inj h
      obtain ⟨before, later, rfl, rfl, hev⟩ := ih hrest
      exact ⟨c :: before, later, rfl, rfl, hev⟩

/-- The last of several events comes after the others. -/
theorem concat_sublist_events {t : CycloneTransport} {calls : List Call} {c : Call} {r : Reply}
    {evs : List (Call × Reply)} (h : (evs ++ [(c, r)]).Sublist (events t calls)) :
    ∃ before later, calls = before ++ c :: later ∧ evs.Sublist (events t before) ∧
      r = c.reply (after t before) := by
  obtain ⟨r₁, r₂, hr, hevs, hev⟩ := List.append_sublist_iff.mp h
  obtain ⟨xs, ys, rfl⟩ := List.append_of_mem (List.singleton_sublist.mp hev)
  obtain ⟨before, later, hcalls, hbefore, hreply⟩ :=
    events_eq_append_cons (hr.trans (List.append_assoc r₁ xs ((c, r) :: ys)).symm)
  exact ⟨before, later, hcalls, hbefore ▸ hevs.trans (List.sublist_append_left r₁ xs), hreply⟩

/-! ### One call -/

section Step
variable {t : CycloneTransport} {impl : Impl}

/-- A topic where there are entities is a number. -/
theorem run_createTopic_of_some (ht : t.impl = some impl) (throws : DdsEntity → Bool)
    (participant : Handle) (name typeName : String) :
    (Call.createTopic throws participant name typeName).run t =
      (.handle t.nextId, { t with nextId := t.nextId + 1 }) := by
  simp [Call.run, CycloneTransport.createTopic, ht, CycloneTransport.fresh]

/-- The first topic constructs the entities, or an exception leaves the call. -/
theorem run_createTopic_of_none (ht : t.impl = none) (throws : DdsEntity → Bool)
    (participant : Handle) (name typeName : String) :
    ((∀ e, throws e = false) ∧ (Call.createTopic throws participant name typeName).run t =
        (.handle t.nextId, ⟨some ⟨0, name, false, false⟩, t.nextId + 1⟩)) ∨
      ((∃ e, throws e = true) ∧ ∃ e,
        (Call.createTopic throws participant name typeName).run t = (.threw e, t)) := by
  obtain ⟨_, nextId⟩ := t
  subst ht
  cases hnew : Impl.new throws 0 name with
  | ok impl =>
    obtain ⟨hthrows, rfl⟩ := (implNew_eq_ok_iff _ _ _ _).mp hnew
    refine Or.inl ⟨hthrows, ?_⟩
    simp [Call.run, createTopic_of_none, hnew, Except.map]
  | error e =>
    refine Or.inr ⟨?_, e, ?_⟩
    · by_contra hall
      have hok := (implNew_eq_ok_iff throws 0 name _).mpr ⟨by simpa using hall, rfl⟩
      rw [hnew] at hok
      cases hok
    · simp [Call.run, createTopic_of_none, hnew, Except.map]

theorem run_createWriter_of_none (ht : t.impl = none) (topic : Handle) :
    (Call.createWriter topic).run t = (.handle handleInvalid, t) := by
  simp [Call.run, CycloneTransport.createWriter, ht]

theorem run_createWriter_of_some (ht : t.impl = some impl) (topic : Handle) :
    (Call.createWriter topic).run t =
      (.handle 1, { t with impl := some { impl with writerCreated := true } }) := by
  simp [Call.run, CycloneTransport.createWriter, ht]

theorem run_createReader_of_none (ht : t.impl = none) (topic : Handle) :
    (Call.createReader topic).run t = (.handle handleInvalid, t) := by
  simp [Call.run, CycloneTransport.createReader, ht]

theorem run_createReader_of_some (ht : t.impl = some impl) (topic : Handle) :
    (Call.createReader topic).run t =
      (.handle 1, { t with impl := some { impl with readerCreated := true } }) := by
  simp [Call.run, CycloneTransport.createReader, ht]

/-- A write succeeds when the writer is marked and the DDS library accepts the sample. -/
theorem run_write_eq_ok_iff (throws : Bool) (writer : Handle) (data : TestData)
    (published : Option Sample) :
    (Call.write throws writer data).reply t = .code retOk published ↔
      throws = false ∧ ∃ impl, t.impl = some impl ∧ impl.writerCreated = true ∧
        published = some ⟨impl.domainId, impl.topicName, data⟩ := by
  have hne : retError ≠ retOk := by decide
  cases ht : t.impl with
  | none => simp [Call.reply, Call.run, CycloneTransport.write, ht, hne]
  | some impl =>
    have hpublished : some (Sample.mk impl.domainId impl.topicName data) = published ↔
        published = some ⟨impl.domainId, impl.topicName, data⟩ := eq_comm
    cases hw : impl.writerCreated <;> cases throws <;>
      simp [Call.reply, Call.run, CycloneTransport.write, ht, hw, hne, hpublished]

end Step

/-! ### What a transport holds -/

/-- The name of the topic that a call created. -/
def topicName? : Call × Reply → Option String
  | (.createTopic _ _ name _, .handle _) => some name
  | _ => none

def firstTopic (evs : List (Call × Reply)) : Option String := evs.findSome? topicName?

/-- Whether a call gave out the handle of a writer. -/
def madeWriter : Call × Reply → Bool
  | (.createWriter _, .handle h) => h ≠ handleInvalid
  | _ => false

/-- The handle that a call drew from the counter. -/
def counterHandle? : Call × Reply → Option Handle
  | (.createParticipant _, .handle h) => some h
  | (.createTopic _ _ _ _, .handle h) => some h
  | _ => none

/-- The number that the counter gives out after `n` others. -/
def counterValue (n : ℕ) : Handle := Int32.ofNat (n + 1)

theorem counterValue_succ (n : ℕ) : counterValue (n + 1) = counterValue n + 1 := Int32.ofNat_add _ _

/-- A transport as the events so far make it: the entities are those of the first topic, in
domain `0`, the writer is marked once its handle was given out, and the counter counts. -/
structure Reflects (t : CycloneTransport) (evs : List (Call × Reply)) : Prop where
  entities : (t.impl.map fun impl => (impl.domainId, impl.topicName)) =
    (firstTopic evs).map fun name => (0, name)
  writer : t.impl.any (·.writerCreated) = evs.any madeWriter
  handles : evs.filterMap counterHandle? =
    (List.range (evs.filterMap counterHandle?).length).map counterValue
  nextId : t.nextId = counterValue (evs.filterMap counterHandle?).length

theorem reflects_new : Reflects CycloneTransport.new [] := ⟨rfl, rfl, rfl, rfl⟩

section Reflects
variable {t t' : CycloneTransport} {evs : List (Call × Reply)}

/-- A call that leaves the counter alone. -/
theorem Reflects.append_of_none {ev : Call × Reply} (h : Reflects t evs)
    (hev : counterHandle? ev = none) (hnext : t'.nextId = t.nextId)
    (hentities : (t'.impl.map fun impl => (impl.domainId, impl.topicName)) =
      (firstTopic (evs ++ [ev])).map fun name => (0, name))
    (hwriter : t'.impl.any (·.writerCreated) = (evs ++ [ev]).any madeWriter) :
    Reflects t' (evs ++ [ev]) := by
  have hsame : (evs ++ [ev]).filterMap counterHandle? = evs.filterMap counterHandle? := by
    rw [List.filterMap_append, List.filterMap_cons_none hev, List.filterMap_nil, List.append_nil]
  exact ⟨hentities, hwriter, hsame ▸ h.handles, hsame ▸ hnext.trans h.nextId⟩

/-- A call that takes the next number. -/
theorem Reflects.append_of_some {ev : Call × Reply} (h : Reflects t evs)
    (hev : counterHandle? ev = some t.nextId) (hnext : t'.nextId = t.nextId + 1)
    (hentities : (t'.impl.map fun impl => (impl.domainId, impl.topicName)) =
      (firstTopic (evs ++ [ev])).map fun name => (0, name))
    (hwriter : t'.impl.any (·.writerCreated) = (evs ++ [ev]).any madeWriter) :
    Reflects t' (evs ++ [ev]) := by
  have hmore : (evs ++ [ev]).filterMap counterHandle? =
      evs.filterMap counterHandle? ++ [t.nextId] := by
    rw [List.filterMap_append, List.filterMap_cons_some hev, List.filterMap_nil]
  refine ⟨hentities, hwriter, ?_, ?_⟩
  · rw [hmore, List.length_append, List.length_singleton, List.range_succ, List.map_append,
      ← h.handles, h.nextId]
    rfl
  · rw [hmore, List.length_append, List.length_singleton, counterValue_succ, ← h.nextId, hnext]

/-- A call that neither creates the first topic nor marks a writer. -/
theorem Reflects.keep (h : Reflects t evs) (ev : Call × Reply)
    (htopic : (firstTopic evs).isSome ∨ topicName? ev = none) (hwriter : madeWriter ev = false) :
    ((t.impl.map fun impl => (impl.domainId, impl.topicName)) =
        (firstTopic (evs ++ [ev])).map fun name => (0, name)) ∧
      t.impl.any (·.writerCreated) = (evs ++ [ev]).any madeWriter := by
  constructor
  · rw [h.entities, firstTopic, firstTopic, List.findSome?_append]
    obtain htopic | htopic := htopic
    · obtain ⟨name, hname⟩ := Option.isSome_iff_exists.mp htopic
      rw [show evs.findSome? topicName? = some name from hname, Option.some_or]
    · rw [List.findSome?_cons, htopic, List.findSome?_nil, Option.or_none]
  · simp [h.writer, hwriter]

theorem Reflects.isSome_firstTopic (h : Reflects t evs) :
    (firstTopic evs).isSome = t.impl.isSome := by
  have hh := congrArg Option.isSome h.entities
  rw [Option.isSome_map, Option.isSome_map] at hh
  exact hh.symm

theorem Reflects.createTopic (h : Reflects t evs) (throws : DdsEntity → Bool)
    (participant : Handle) (name typeName : String) :
    let c := Call.createTopic throws participant name typeName
    Reflects (c.next t) (evs ++ [(c, c.reply t)]) := by
  intro c
  cases ht : t.impl with
  | some impl =>
    have hrun := run_createTopic_of_some ht throws participant name typeName
    have hsome : (firstTopic evs).isSome := by rw [h.isSome_firstTopic, ht]; rfl
    have hkeep := h.keep (c, c.reply t) (Or.inl hsome) (by rw [Call.reply, hrun]; rfl)
    rw [Call.next, hrun]
    exact h.append_of_some (by rw [Call.reply, hrun]; rfl) rfl hkeep.1 hkeep.2
  | none =>
    have hnone : evs.findSome? topicName? = none := by
      rw [← Option.not_isSome_iff_eq_none, ← firstTopic, h.isSome_firstTopic, ht]
      simp
    obtain ⟨-, hrun⟩ | ⟨-, e, hrun⟩ := run_createTopic_of_none ht throws participant name typeName
    · have hwriter := h.writer
      rw [ht] at hwriter
      rw [Call.next, Call.reply, hrun]
      refine h.append_of_some rfl rfl ?_ ?_
      · rw [firstTopic, List.findSome?_append, hnone]
        rfl
      · rw [List.any_append, ← hwriter]
        rfl
    · have hkeep := h.keep (c, c.reply t) (Or.inr (by rw [Call.reply, hrun]; rfl))
        (by rw [Call.reply, hrun]; rfl)
      rw [Call.next, hrun]
      exact h.append_of_none (by rw [Call.reply, hrun]; rfl) rfl hkeep.1 hkeep.2

/-- One call leaves what its event says. -/
theorem Reflects.step (h : Reflects t evs) (c : Call) :
    Reflects (c.next t) (evs ++ [(c, c.reply t)]) := by
  cases c with
  | createParticipant domainId =>
    have hkeep := h.keep (.createParticipant domainId, .handle t.nextId) (Or.inr rfl) rfl
    exact h.append_of_some rfl rfl hkeep.1 hkeep.2
  | createTopic throws participant name typeName =>
    exact h.createTopic throws participant name typeName
  | createWriter topic =>
    cases ht : t.impl with
    | none =>
      have hkeep := h.keep (.createWriter topic, .handle handleInvalid) (Or.inr rfl) rfl
      rw [Call.next, Call.reply, run_createWriter_of_none ht]
      exact h.append_of_none rfl rfl hkeep.1 hkeep.2
    | some impl =>
      have hentities := h.entities
      rw [ht] at hentities
      rw [Call.next, Call.reply, run_createWriter_of_some ht]
      refine h.append_of_none rfl rfl (hentities.trans ?_) ?_
      · rw [firstTopic, firstTopic, List.findSome?_append]
        exact congrArg _ (Option.or_none (o := evs.findSome? topicName?)).symm
      · rw [List.any_append]
        exact (Bool.or_true _).symm
  | createReader topic =>
    cases ht : t.impl with
    | none =>
      have hkeep := h.keep (.createReader topic, .handle handleInvalid) (Or.inr rfl) rfl
      rw [Call.next, Call.reply, run_createReader_of_none ht]
      exact h.append_of_none rfl rfl hkeep.1 hkeep.2
    | some impl =>
      have hkeep := h.keep (.createReader topic, .handle 1) (Or.inr rfl) rfl
      rw [ht] at hkeep
      rw [Call.next, Call.reply, run_createReader_of_some ht]
      exact h.append_of_none rfl rfl hkeep.1 hkeep.2
  | write throws writer data =>
    have hkeep := h.keep (.write throws writer data, (Call.write throws writer data).reply t)
      (Or.inr rfl) rfl
    exact h.append_of_none rfl rfl hkeep.1 hkeep.2
  | deleteEntity entity =>
    have hkeep := h.keep (.deleteEntity entity, .done) (Or.inr rfl) rfl
    exact h.append_of_none rfl rfl hkeep.1 hkeep.2

/-- A whole trace leaves what its events say. -/
theorem Reflects.after (h : Reflects t evs) (calls : List Call) :
    Reflects (after t calls) (evs ++ events t calls) := by
  induction calls generalizing t evs with
  | nil => simpa using h
  | cons c calls ih => simpa using ih (h.step c)

end Reflects

/-! ### Replies -/

section Replies
variable {t : CycloneTransport} {evs : List (Call × Reply)}

theorem Reflects.createWriter_reply (h : Reflects t evs) (topic : Handle) :
    (Call.createWriter topic).reply t =
      .handle (if (firstTopic evs).isSome then 1 else handleInvalid) := by
  rw [h.isSome_firstTopic, Call.reply]
  cases ht : t.impl with
  | none => rw [run_createWriter_of_none ht]; rfl
  | some impl => rw [run_createWriter_of_some ht]; rfl

theorem Reflects.createReader_reply (h : Reflects t evs) (topic : Handle) :
    (Call.createReader topic).reply t =
      .handle (if (firstTopic evs).isSome then 1 else handleInvalid) := by
  rw [h.isSome_firstTopic, Call.reply]
  cases ht : t.impl with
  | none => rw [run_createReader_of_none ht]; rfl
  | some impl => rw [run_createReader_of_some ht]; rfl

theorem Reflects.write_ok_iff (h : Reflects t evs) (throws : Bool) (writer : Handle)
    (data : TestData) :
    (∃ published, (Call.write throws writer data).reply t = .code retOk published) ↔
      throws = false ∧ evs.any madeWriter = true := by
  simp only [run_write_eq_ok_iff, ← h.writer, Option.any_eq_true]
  constructor
  · rintro ⟨_, hthrows, impl, ht, hw, -⟩
    exact ⟨hthrows, impl, ht, hw⟩
  · rintro ⟨hthrows, impl, ht, hw⟩
    exact ⟨_, hthrows, impl, ht, hw, rfl⟩

/-- A write through a writer publishes under the first topic. -/
theorem Reflects.write_reply (h : Reflects t evs) {first : String}
    (hfirst : firstTopic evs = some first) (hw : evs.any madeWriter = true) (throws : Bool)
    (writer : Handle) (data : TestData) :
    (Call.write throws writer data).reply t =
      if throws then .code retError none else .code retOk (some ⟨0, first, data⟩) := by
  obtain ⟨impl, ht, hcreated⟩ := (Option.any_eq_true _ _).mp (h.writer.trans hw)
  have hentities := h.entities
  rw [ht, hfirst] at hentities
  obtain ⟨hdomain, hname⟩ := Prod.mk.inj (Option.some.inj hentities)
  obtain ⟨_, nextId⟩ := t
  subst ht
  rw [Call.reply, Call.run, write_of_writer impl nextId hcreated, hdomain, hname]
  cases throws <;> rfl

end Replies

theorem reflects_after (calls : List Call) :
    Reflects (after CycloneTransport.new calls) (events CycloneTransport.new calls) :=
  reflects_new.after calls

end DdsBenchmark.Transport
