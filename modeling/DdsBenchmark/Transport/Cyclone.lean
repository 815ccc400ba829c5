import Mathlib.Init

/-! The CycloneDDS adapter of the transport interface. The DDS library is its environment: each
of its calls either succeeds or throws. One set of entities holds the domain and the topic name
it was constructed with, and a sample that the library accepts is published on these. -/

namespace DdsBenchmark.Transport

/-- A DDS-style entity handle. -/
abbrev Handle := Int32

def handleInvalid : Handle := -1

def retOk : Int32 := 0

def retError : Int32 := -1

/-- The message type of the benchmark topic. -/
structure TestData where
  seq : UInt64
  timestamp : UInt64
  baggage : String
  deriving DecidableEq

/-- The members of `CycloneTransport::Impl` whose constructors call the DDS library. -/
inductive DdsEntity where
  | participant
  | topic
  | publisher
  | subscriber
  | writer
  | reader
  deriving DecidableEq

/-- A sample as the DDS library publishes it. -/
structure Sample where
  domainId : Int
  topicName : String
  data : TestData
  deriving DecidableEq

/-- The entities the adapter holds: the domain of its participant, the name of its topic. -/
structure Impl where
  domainId : Int
  topicName : String
  writerCreated : Bool
  readerCreated : Bool
  deriving DecidableEq

/-- One constructor call to the DDS library. -/
def DdsEntity.construct (throws : DdsEntity → Bool) (e : DdsEntity) : Except DdsEntity Unit :=
  if throws e then .error e else .ok ()

/-- The constructor: the members in their order, up to the first that throws. -/
def Impl.new (throws : DdsEntity → Bool) (domainId : Int) (topicName : String) :
    Except DdsEntity Impl := do
  DdsEntity.participant.construct throws
  DdsEntity.topic.construct throws
  DdsEntity.publisher.construct throws
  DdsEntity.subscriber.construct throws
  DdsEntity.writer.construct throws
  DdsEntity.reader.construct throws
  return { domainId, topicName, writerCreated := false, readerCreated := false }

/-- `impl` is absent while the pointer is null. -/
structure CycloneTransport where
  impl : Option Impl
  nextId : Int32
  deriving DecidableEq

namespace CycloneTransport

/-- The constructor. -/
def new : CycloneTransport := ⟨none, 1⟩

/-- `next_id_++`. -/
def fresh (t : CycloneTransport) : Handle × CycloneTransport :=
  (t.nextId, { t with nextId := t.nextId + 1 })

def createParticipant (t : CycloneTransport) (_domainId : Int) : Handle × CycloneTransport :=
  t.fresh

/-- An exception of the constructor leaves the call; nothing has been assigned by then. -/
def createTopic (t : CycloneTransport) (throws : DdsEntity → Bool) (_participant : Handle)
    (name : String) (_typeName : String) : Except DdsEntity (Handle × CycloneTransport) :=
  match t.impl with
  | some _ => .ok t.fresh
  | none =>
    match Impl.new throws 0 name with
    | .error e => .error e
    | .ok impl => .ok { t with impl := some impl }.fresh

def createWriter (t : CycloneTransport) (_topic : Handle) : Handle × CycloneTransport :=
  match t.impl with
  | none => (handleInvalid, t)
  | some impl => (1, { t with impl := some { impl with writerCreated := true } })

def createReader (t : CycloneTransport) (_topic : Handle) : Handle × CycloneTransport :=
  match t.impl with
  | none => (handleInvalid, t)
  | some impl => (1, { t with impl := some { impl with readerCreated := true } })

/-- The result and the sample published: an exception of the DDS writer is turned into an
error code. -/
def write (t : CycloneTransport) (throws : Bool) (_writer : Handle) (data : TestData) :
    Int32 × Option Sample :=
  match t.impl with
  | none => (retError, none)
  | some impl =>
    if ¬ impl.writerCreated then (retError, none)
    else if throws then (retError, none)
    else (retOk, some { domainId := impl.domainId, topicName := impl.topicName, data })

/-- Writer and reader are cleaned up with the transport. -/
def deleteEntity (t : CycloneTransport) (_entity : Handle) : CycloneTransport := t

end CycloneTransport

theorem construct_bind_eq_ok_iff {α : Type} {throws : DdsEntity → Bool} {e : DdsEntity}
    {rest : Unit → Except DdsEntity α} {a : α} :
    (e.construct throws >>= rest) = .ok a ↔ throws e = false ∧ rest () = .ok a := by
  unfold DdsEntity.construct
  cases throws e
  · exact (and_iff_right rfl).symm
  · exact ⟨fun h => (nomatch h), fun h => (nomatch h.1)⟩

/-- All members are constructed exactly when none of the DDS constructors throws. -/
theorem implNew_eq_ok_iff (throws : DdsEntity → Bool) (domainId : Int) (topicName : String)
    (impl : Impl) :
    Impl.new throws domainId topicName = .ok impl ↔
      (∀ e, throws e = false) ∧ impl = ⟨domainId, topicName, false, false⟩ := by
  simp only [Impl.new, construct_bind_eq_ok_iff]
  constructor
  · intro ⟨h₁, h₂, h₃, h₄, h₅, h₆, h⟩
    refine ⟨fun e => ?_, (Except.ok.inj h).symm⟩
    cases e <;> assumption
  · intro ⟨h, hi⟩
    exact ⟨h _, h _, h _, h _, h _, h _, congrArg Except.ok hi.symm⟩

/-- The first topic constructs the entities, in domain `0` whatever the participant. -/
theorem createTopic_of_none (nextId : Int32) (throws : DdsEntity → Bool) (participant : Handle)
    (name typeName : String) :
    (CycloneTransport.mk none nextId).createTopic throws participant name typeName =
      (Impl.new throws 0 name).map fun impl => (nextId, ⟨some impl, nextId + 1⟩) := by
  unfold CycloneTransport.createTopic
  cases Impl.new throws 0 name <;> rfl

/-- With a writer in place, a write is what the DDS library makes of it. -/
theorem write_of_writer (impl : Impl) (nextId : Int32) (hw : impl.writerCreated = true)
    (throws : Bool) (writer : Handle) (data : TestData) :
    (CycloneTransport.mk (some impl) nextId).write throws writer data =
      if throws then (retError, none)
      else (retOk, some { domainId := impl.domainId, topicName := impl.topicName, data }) := by
  simp [CycloneTransport.write, hw]

end DdsBenchmark.Transport
