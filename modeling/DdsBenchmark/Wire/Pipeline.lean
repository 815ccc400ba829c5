import DdsBenchmark.Publisher.Accounting
import DdsBenchmark.Wire.RoundTrip

/-! From the loop of the publisher to the books of a subscriber on another machine: what the DDS
library publishes is serialized, loses messages on its way and travels in pieces, and is counted
as it is read. -/

namespace DdsBenchmark.Wire

open Publisher Transport Netload ThroughputCalculator Sequencing

/-- The message as the generated class holds it, its text in bytes. -/
def ofTransport (data : Transport.TestData) : TestData :=
  ⟨data.seq, data.timestamp, data.baggage.toUTF8.data.toList⟩

/-- The messages of a run that the DDS library published. -/
def published (run : PublisherRun) : List TestData :=
  (run.messages.filterMap (·.published)).map fun sample => ofTransport sample.data

section Published
variable {opts : Options} {env : Environment} {run : PublisherRun}

/-- A message of a run holds the text `"test"`, and is published as it is if at all. -/
theorem published_of_mem (hrun : runPublisher opts env = .ran run) {message : Message}
    (hm : message ∈ run.messages) :
    message.data.baggage = "test" ∧
      ∀ sample, message.published = some sample → sample.data = message.data := by
  obtain ⟨-, rfl⟩ := (runPublisher_eq_ran_iff _ _ _).mp hrun
  rw [messages_eq] at hm
  obtain ⟨⟨s, pass⟩, -, rfl⟩ := List.mem_map.mp hm
  refine ⟨rfl, fun sample hsample => ?_⟩
  rw [Setup.message, write_looping] at hsample
  split at hsample <;> cases hsample
  rfl

theorem length_baggage (hrun : runPublisher opts env = .ran run) {sample : TestData}
    (hs : sample ∈ published run) : sample.baggage.length = 4 := by
  obtain ⟨taken, htaken, rfl⟩ := List.mem_map.mp hs
  obtain ⟨message, hm, hpublished⟩ := List.mem_filterMap.mp htaken
  obtain ⟨hbaggage, hdata⟩ := published_of_mem hrun hm
  rw [ofTransport, hdata taken hpublished, hbaggage]
  rfl

theorem seqs_published (hrun : runPublisher opts env = .ran run) :
    ((published run).map TestType.seq).Sublist run.seqs := by
  have hmessages : ∀ messages : List Message, (∀ m ∈ messages, m ∈ run.messages) →
      (((messages.filterMap (·.published)).map fun sample => ofTransport sample.data).map
        TestType.seq).Sublist (messages.map (·.data.seq)) := by
    intro messages hsub
    induction messages with
    | nil => exact List.Sublist.refl _
    | cons m messages ih =>
      have ih := ih fun m' hm' => hsub m' (List.mem_cons_of_mem m hm')
      cases hp : m.published with
      | none =>
        rw [List.filterMap_cons_none hp]
        exact ih.cons _
      | some sample =>
        have hdata := (published_of_mem hrun (hsub m List.mem_cons_self)).2 sample hp
        rw [List.filterMap_cons_some hp, List.map_cons, List.map_cons, List.map_cons, ofTransport,
          hdata]
        exact ih.cons_cons _
  exact hmessages run.messages fun _ hm => hm

end Published

/-- Images of short messages come back one by one, each from its own pieces. -/
theorem receive_arrivals {reader : Host (List UInt8)} (hr : reader.engine.Documented)
    (native : Endianness) {samples : List TestData}
    (hshort : ∀ sample ∈ samples, sample.baggage.length = 4)
    {arrivals : List (List (List UInt8))}
    (h : arrivals.map List.flatten = samples.map fun sample =>
      (image Codec.string native sample).take
        ((image Codec.string native sample).length % 2 ^ 32)) :
    arrivals.map (fun iov => receive stringBaggage reader iov iov.flatten.length) =
      samples.map some := by
  induction samples generalizing arrivals with
  | nil =>
    rw [List.map_nil, List.map_eq_nil_iff] at h
    rw [h]
    rfl
  | cons sample samples ih =>
    obtain ⟨iov, arrivals, rfl, hiov, harrivals⟩ := List.map_eq_cons_iff.mp h
    have hlength := length_image_string native sample
    rw [hshort sample List.mem_cons_self, show padding (4 + 25) 4 = 3 by rfl] at hlength
    have hsize : iov.flatten.length = (image Codec.string native sample).length % 2 ^ 32 := by
      rw [hiov, List.length_take]
      omega
    have hreceived := (receive_image_iff reader hr stringBaggage_follows native sample hiov).mpr
      (by omega)
    rw [List.map_cons, List.map_cons, hsize, hreceived,
      ih (fun s hs => hshort s (List.mem_cons_of_mem sample hs)) harrivals]

/-- Numbers that stand in a row before some are lost: what is counted and what is missed come to
the last of them. -/
theorem totalMsgs_add_lostMsgs {n : ℕ} {seqs arrived : List UInt64} {last : UInt64}
    (hrow : numbers seqs = List.range' 1 n) (hn : n < 2 ^ 64 - 1)
    (hsub : (arrived ++ [last]).Sublist seqs) (payloadSize : UInt64) :
    let stats := ((new payloadSize).feed (arrived ++ [last])).compute
    stats.totalMsgs.toNat = (arrived ++ [last]).length ∧
      stats.totalMsgs.toNat + stats.lostMsgs.toNat = last.toNat := by
  have hrange : (numbers arrived ++ [last.toNat]).Sublist (List.range' 1 n) := by
    rw [← hrow]
    simpa using hsub.map UInt64.toNat
  have hin := (inOrder_range' 1 n).sublist hrange
  have hnumbers : numbers (arrived ++ [last]) = numbers arrived ++ [last.toNat] := List.map_append
  have hlast : last.toNat < 1 + n := (List.mem_range'_1.mp (hrange.subset (by simp))).2
  have hbooks := hin.last_eq
  rw [← hnumbers, List.length_map] at hbooks
  have htotal := totalMsgs_feed payloadSize
    (show (arrived ++ [last]).length < 2 ^ 64 by omega)
  have hlost := lostMsgs_feed payloadSize
    (show Gaps.gapSum 1 (numbers (arrived ++ [last])) < 2 ^ 64 by omega)
  refine ⟨htotal, ?_⟩
  rw [htotal, hlost]
  omega

/-- On a channel that loses messages and keeps the order of the others, and that cuts them into
pieces as it likes, a subscriber reads what was published, and its books come to the number of
the message it read last. -/
theorem pipeline (opts : Options) (env : Environment) (run : PublisherRun)
    (hrun : runPublisher opts env = .ran run) (hN : run.messages.length < 2 ^ 64 - 1)
    (payloadSize : UInt64) (writer reader : Host (List UInt8)) (hw : writer.engine.Documented)
    (hr : reader.engine.Documented) :
    ∃ ds, serializeAll stringBaggage writer none (published run) = some ds ∧
      ∀ carried : List (Serdata (List UInt8)), carried.Sublist ds →
      ∀ arrivals : List (List (List UInt8)),
        arrivals.map List.flatten = carried.map (fun d => serdataToSer d 0 (serdataSize d)) →
        ∃ delivered : List TestData, delivered.Sublist (published run) ∧
          arrivals.map (fun iov => receive stringBaggage reader iov iov.flatten.length) =
            delivered.map some ∧
          ∀ arrived last, delivered.map TestType.seq = arrived ++ [last] →
            let stats := ((new payloadSize).feed (arrived ++ [last])).compute
            stats.totalMsgs.toNat = arrivals.length ∧
            stats.totalMsgs.toNat + stats.lostMsgs.toNat = last.toNat := by
  refine ⟨_, serializeAll_eq writer hw stringBaggage_follows (kept_none _ _) _, ?_⟩
  intro carried hcarried arrivals harrivals
  obtain ⟨delivered, hdelivered, rfl⟩ := List.sublist_map_iff.mp hcarried
  have hshort : ∀ sample ∈ delivered, sample.baggage.length = 4 := fun sample hs =>
    length_baggage hrun (hdelivered.subset hs)
  rw [List.map_map] at harrivals
  refine ⟨delivered, hdelivered, receive_arrivals hr writer.native hshort harrivals, ?_⟩
  intro arrived last hseqs
  have hlength : arrivals.length = (arrived ++ [last]).length := by
    have := congrArg List.length harrivals
    rw [← hseqs]
    simpa using this
  have hsub : (arrived ++ [last]).Sublist run.seqs := by
    rw [← hseqs]
    exact (hdelivered.map _).trans (seqs_published hrun)
  rw [hlength]
  exact totalMsgs_add_lostMsgs (numbers_seqs hrun (by omega)) hN hsub payloadSize

/-- Two writes, neither of which fails. -/
def twoWrites : PublisherRun :=
  publisherLoop (looping {} (promptEnvironment [false, false]))
    (initial (promptEnvironment [false, false])) (promptEnvironment [false, false]).passes

theorem pipeline_two_writes :
    ∃ ds, serializeAll stringBaggage (bigHost _) none (published twoWrites) = some ds ∧
      ∀ carried : List (Serdata (List UInt8)), carried.Sublist ds →
        ∀ arrivals : List (List (List UInt8)),
        arrivals.map List.flatten = carried.map (fun d => serdataToSer d 0 (serdataSize d)) →
        ∃ delivered : List TestData, delivered.Sublist (published twoWrites) ∧
          arrivals.map (fun iov => receive stringBaggage (littleHost _) iov iov.flatten.length) =
            delivered.map some ∧
          ∀ arrived last, delivered.map TestType.seq = arrived ++ [last] →
            let stats := ((new 256).feed (arrived ++ [last])).compute
            stats.totalMsgs.toNat = arrivals.length ∧
            stats.totalMsgs.toNat + stats.lostMsgs.toNat = last.toNat :=
  pipeline {} (promptEnvironment [false, false]) twoWrites (runPublisher_prompt _ _)
    (by decide) 256 (bigHost _) (littleHost _) plainEngine_documented plainEngine_documented

end DdsBenchmark.Wire
