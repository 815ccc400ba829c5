import DdsBenchmark.Perf.Announce

/-! The table of pong writers of the performance tool, under `pongwr_lock`. A participant gets one
writer, in its own partition. The publications of pings and data are assigned to the writer of
their participant when the first of them is to be answered: the first takes the place that was made
with the writer, every other one gets a place of its own. -/

namespace DdsBenchmark.Perf

/-- `struct subthread_arg_pongwr`. -/
structure PongWr where
  pubhandle : UInt64
  pphandle : UInt64
  wrPong : Int32
  deriving DecidableEq

/-- What `create_pong_writer` adds for its new writer. -/
def addPongWriter (table : List PongWr) (pphandle : UInt64) (wrPong : Int32) : List PongWr :=
  table ++ [⟨0, pphandle, wrPong⟩]

/-- `delete_pong_writer`. It returns 0 whatever it deletes, so no writer is ever deleted. -/
def deletePongWriter (table : List PongWr) (pphandle : UInt64) : List PongWr × Int32 :=
  (table.filter fun e => e.pphandle ≠ pphandle, 0)

/-- The first place of a participant is given to a publication. -/
def assign (pubhandle pphandle : UInt64) : List PongWr → List PongWr
  | [] => []
  | e :: table =>
    if e.pphandle = pphandle then { e with pubhandle } :: table
    else e :: assign pubhandle pphandle table

/-- `get_pong_writer_locked`, when `get_pphandle_for_pubhandle` returns `pphandle`. -/
def getPongWriterLocked (table : List PongWr) (pubhandle pphandle : UInt64) :
    List PongWr × Int32 :=
  match table.find? fun e => e.pubhandle = pubhandle with
  | some e => (table, e.wrPong)
  | none =>
    match table.find? fun e => e.pphandle = pphandle with
    | none => (table, 0)
    | some e =>
      if e.pubhandle = 0 then (assign pubhandle pphandle table, e.wrPong)
      else (table ++ [⟨pubhandle, pphandle, e.wrPong⟩], e.wrPong)

theorem mem_assign {pubhandle pphandle : UInt64} {table : List PongWr} {e : PongWr}
    (h : e ∈ assign pubhandle pphandle table) :
    e ∈ table ∨ ∃ x ∈ table, x.pphandle = pphandle ∧ e = { x with pubhandle } := by
  induction table with
  | nil => cases h
  | cons x table ih =>
    rw [assign] at h
    split_ifs at h with hx
    · rcases List.mem_cons.mp h with rfl | h
      · exact .inr ⟨x, List.mem_cons_self, hx, rfl⟩
      · exact .inl (List.mem_cons_of_mem x h)
    · rcases List.mem_cons.mp h with rfl | h
      · exact .inl List.mem_cons_self
      · rcases ih h with h | ⟨y, hy, hh, rfl⟩
        · exact .inl (List.mem_cons_of_mem x h)
        · exact .inr ⟨y, List.mem_cons_of_mem x hy, hh, rfl⟩

theorem map_pphandle_assign (pubhandle pphandle : UInt64) (table : List PongWr) :
    (assign pubhandle pphandle table).map PongWr.pphandle = table.map PongWr.pphandle := by
  induction table with
  | nil => rfl
  | cons x table ih =>
    rw [assign]
    split_ifs
    · rfl
    · rw [List.map_cons, ih, List.map_cons]

/-- What a table of writers has to be: `dest` is the partition that an existing writer writes
into, `part` the partition of a participant and `owner` the participant of a publication. -/
structure Routed {π : Type} (owner : UInt64 → UInt64) (part : UInt64 → π) (dest : Int32 → Option π)
    (table : List PongWr) : Prop where
  participant : ∀ e ∈ table, e.pphandle ≠ 0
  writer : ∀ e ∈ table, e.wrPong ≠ 0 ∧ dest e.wrPong = some (part e.pphandle)
  publication : ∀ e ∈ table, e.pubhandle ≠ 0 → owner e.pubhandle = e.pphandle

/-- The participants that have a writer. -/
def served (table : List PongWr) (pphandle : UInt64) : Prop := ∃ e ∈ table, e.pphandle = pphandle

section Table
variable {π : Type} {owner : UInt64 → UInt64} {part : UInt64 → π} {dest : Int32 → Option π}
variable {table : List PongWr}
variable {pubhandle pphandle : UInt64}

theorem served_addPongWriter (wr : Int32) (h : UInt64) :
    served (addPongWriter table pphandle wr) h ↔ served table h ∨ h = pphandle := by
  simp [served, addPongWriter, or_and_right, exists_or, eq_comm]

theorem served_deletePongWriter (h : UInt64) :
    served (deletePongWriter table pphandle).1 h ↔ served table h ∧ h ≠ pphandle := by
  simp only [served, deletePongWriter, List.mem_filter, decide_eq_true_eq]
  constructor
  · rintro ⟨e, ⟨he, hne⟩, rfl⟩
    exact ⟨⟨e, he, rfl⟩, hne⟩
  · rintro ⟨⟨e, he, rfl⟩, hne⟩
    exact ⟨e, ⟨he, hne⟩, rfl⟩

theorem served_assign (h : UInt64) :
    served (assign pubhandle pphandle table) h ↔ served table h := by
  simp only [served, ← List.mem_map, map_pphandle_assign]

theorem served_getPongWriterLocked (h : UInt64) :
    served (getPongWriterLocked table pubhandle pphandle).1 h ↔ served table h := by
  unfold getPongWriterLocked
  split
  · rfl
  · split
    · rfl
    · rename_i e he
      split_ifs
      · exact served_assign h
      · have hmem := List.mem_of_find?_eq_some he
        have hpp : e.pphandle = pphandle := by simpa using List.find?_some he
        simp only [served, List.mem_append, List.mem_singleton]
        constructor
        · rintro ⟨x, hx | rfl, rfl⟩
          · exact ⟨x, hx, rfl⟩
          · exact ⟨e, hmem, hpp⟩
        · rintro ⟨x, hx, rfl⟩
          exact ⟨x, .inl hx, rfl⟩

theorem Routed.add (h : Routed owner part dest table) (hpp : pphandle ≠ 0) {wr : Int32}
    (hwr : wr ≠ 0) (hfresh : dest wr = none) :
    Routed owner part (Function.update dest wr (some (part pphandle)))
      (addPongWriter table pphandle wr) := by
  have hmem {e : PongWr} (he : e ∈ addPongWriter table pphandle wr) :
      e ∈ table ∨ e = ⟨0, pphandle, wr⟩ := by simpa [addPongWriter] using he
  refine ⟨fun e he => ?_, fun e he => ?_, fun e he hpub => ?_⟩
  · rcases hmem he with he | rfl
    · exact h.participant e he
    · exact hpp
  · rcases hmem he with he | rfl
    · obtain ⟨hne, hdest⟩ := h.writer e he
      have hother : e.wrPong ≠ wr := by
        intro heq
        rw [heq, hfresh] at hdest
        cases hdest
      exact ⟨hne, by rw [Function.update_of_ne hother, hdest]⟩
    · exact ⟨hwr, Function.update_self ..⟩
  · rcases hmem he with he | rfl
    · exact h.publication e he hpub
    · exact absurd rfl hpub

theorem Routed.delete (h : Routed owner part dest table) (pphandle : UInt64) :
    Routed owner part dest (deletePongWriter table pphandle).1 :=
  ⟨fun e he => h.participant e (List.mem_filter.mp he).1,
    fun e he => h.writer e (List.mem_filter.mp he).1,
    fun e he => h.publication e (List.mem_filter.mp he).1⟩

/-- Whether the middleware still finds the publication or not, the table stays right. -/
theorem Routed.get (h : Routed owner part dest table)
    (hpp : pphandle = 0 ∨ pphandle = owner pubhandle) :
    Routed owner part dest (getPongWriterLocked table pubhandle pphandle).1 := by
  unfold getPongWriterLocked
  split
  · exact h
  · split
    · exact h
    · rename_i e he
      have hmem := List.mem_of_find?_eq_some he
      have hhandle : e.pphandle = pphandle := by simpa using List.find?_some he
      have howner : pphandle = owner pubhandle :=
        hpp.resolve_left (hhandle ▸ h.participant e hmem)
      split_ifs
      · refine ⟨fun x hx => ?_, fun x hx => ?_, fun x hx hpub => ?_⟩ <;>
          rcases mem_assign hx with hx | ⟨y, hy, hyh, rfl⟩
        · exact h.participant x hx
        · exact h.participant y hy
        · exact h.writer x hx
        · exact h.writer y hy
        · exact h.publication x hx hpub
        · rw [hyh, howner]
      · refine ⟨fun x hx => ?_, fun x hx => ?_, fun x hx hpub => ?_⟩ <;>
          rcases List.mem_append.mp hx with hx | hx
        · exact h.participant x hx
        · obtain rfl := List.mem_singleton.mp hx
          exact hhandle ▸ h.participant e hmem
        · exact h.writer x hx
        · obtain rfl := List.mem_singleton.mp hx
          exact hhandle ▸ h.writer e hmem
        · exact h.publication x hx hpub
        · obtain rfl := List.mem_singleton.mp hx
          exact howner.symm

/-- A writer that is returned writes to the participant the publication belongs to. -/
theorem Routed.get_writer (h : Routed owner part dest table) (hpub : pubhandle ≠ 0)
    (hpp : pphandle = 0 ∨ pphandle = owner pubhandle)
    (hwr : (getPongWriterLocked table pubhandle pphandle).2 ≠ 0) :
    dest (getPongWriterLocked table pubhandle pphandle).2 = some (part (owner pubhandle)) := by
  unfold getPongWriterLocked at hwr ⊢
  split at hwr
  · rename_i e he
    have hmem := List.mem_of_find?_eq_some he
    have hhandle : e.pubhandle = pubhandle := by simpa using List.find?_some he
    rw [(h.writer e hmem).2, ← h.publication e hmem (hhandle ▸ hpub), hhandle]
  · split at hwr
    · exact absurd rfl hwr
    · rename_i e he
      have hmem := List.mem_of_find?_eq_some he
      have hhandle : e.pphandle = pphandle := by simpa using List.find?_some he
      have howner : pphandle = owner pubhandle :=
        hpp.resolve_left (hhandle ▸ h.participant e hmem)
      split_ifs <;> rw [(h.writer e hmem).2, hhandle, howner]

/-- A participant with a writer is answered, as long as the middleware knows the publication. -/
theorem Routed.get_ne_zero (h : Routed owner part dest table) (hserved : served table pphandle) :
    (getPongWriterLocked table pubhandle pphandle).2 ≠ 0 := by
  unfold getPongWriterLocked
  split
  · rename_i e he
    exact (h.writer e (List.mem_of_find?_eq_some he)).1
  · split
    · rename_i hnone
      obtain ⟨e, he, hpp⟩ := hserved
      exact absurd hpp (by simpa using List.find?_eq_none.mp hnone e he)
    · rename_i e he
      split_ifs <;> exact (h.writer e (List.mem_of_find?_eq_some he)).1

end Table

end DdsBenchmark.Perf
