import DdsBenchmark.Stream.Interleave
import DdsBenchmark.Table.Overwrite

/-! A table that is searched by key from the front: the first entry with the key is changed, or a
new entry is put at the end. Entries with other keys stay as they are, keys stay distinct, and
after any sequence of such operations the entry of a key is what the operations with that key
alone make of it. -/

namespace DdsBenchmark.Upsert

variable {κ ρ ι : Type*} [DecidableEq κ] (key : ρ → κ)

/-- Change the first entry with key `k`, or append `new`. -/
def upsert (k : κ) (change : ρ → ρ) (new : ρ) : List ρ → List ρ
  | [] => [new]
  | r :: rs => if key r = k then change r :: rs else r :: upsert k change new rs

/-- The first entry with key `k`. -/
def entry (k : κ) (table : List ρ) : Option ρ := table.find? (key · = k)

variable {key} {k : κ} {change : ρ → ρ} {new : ρ}

@[simp] theorem entry_nil : entry key k [] = none := rfl

theorem entry_cons (r : ρ) (rs : List ρ) :
    entry key k (r :: rs) = if key r = k then some r else entry key k rs := by
  by_cases h : key r = k <;> simp [entry, h]

theorem key_of_entry {table : List ρ} {r : ρ} (h : entry key k table = some r) : key r = k := by
  simpa using List.find?_some h

theorem mem_of_entry {table : List ρ} {r : ρ} (h : entry key k table = some r) : r ∈ table :=
  List.mem_of_find?_eq_some h

/-- The entry written. -/
theorem entry_upsert_self (hc : ∀ r, key r = k → key (change r) = k) (hn : key new = k)
    (table : List ρ) :
    entry key k (upsert key k change new table) = some ((entry key k table).elim new change) := by
  induction table with
  | nil => simp [upsert, entry_cons, hn]
  | cons r rs ih =>
    rw [upsert, entry_cons]
    by_cases h : key r = k
    · rw [if_pos h, if_pos h, entry_cons, if_pos (hc r h)]
      rfl
    · rw [if_neg h, if_neg h, entry_cons, if_neg h, ih]

/-- The other entries. -/
theorem entry_upsert_of_ne (hc : ∀ r, key r = k → key (change r) = k) (hn : key new = k) {j : κ}
    (hj : j ≠ k) (table : List ρ) :
    entry key j (upsert key k change new table) = entry key j table := by
  induction table with
  | nil => simp [upsert, entry_cons, hn, Ne.symm hj]
  | cons r rs ih =>
    rw [upsert]
    by_cases h : key r = k
    · rw [if_pos h, entry_cons, entry_cons, if_neg, if_neg]
      · exact fun he => hj (he.symm.trans h)
      · exact fun he => hj (he.symm.trans (hc r h))
    · rw [if_neg h, entry_cons, entry_cons, ih]

/-- The keys, in the order in which they came. -/
theorem map_key_upsert (hc : ∀ r, key r = k → key (change r) = k) (hn : key new = k)
    (table : List ρ) :
    (upsert key k change new table).map key =
      if k ∈ table.map key then table.map key else table.map key ++ [k] := by
  induction table with
  | nil => simp [upsert, hn]
  | cons r rs ih =>
    by_cases h : key r = k
    · simp [upsert, h, hc r h]
    · by_cases hm : k ∈ rs.map key
      · rw [upsert, if_neg h, List.map_cons, ih, if_pos hm, List.map_cons,
          if_pos (List.mem_cons_of_mem _ hm)]
      · rw [upsert, if_neg h, List.map_cons, ih, if_neg hm, List.map_cons,
          if_neg (by simpa [Ne.symm h] using hm), List.cons_append]

/-- A key stays in its place. -/
theorem getElem?_key_upsert (hc : ∀ r, key r = k → key (change r) = k) (hn : key new = k)
    {table : List ρ} {i : ℕ} {j : κ} (h : (table.map key)[i]? = some j) :
    ((upsert key k change new table).map key)[i]? = some j := by
  rw [map_key_upsert hc hn]
  by_cases hk : k ∈ table.map key
  · rwa [if_pos hk]
  · rw [if_neg hk, List.getElem?_append_left (List.getElem?_eq_some_iff.mp h).1]
    exact h

theorem nodup_upsert (hc : ∀ r, key r = k → key (change r) = k) (hn : key new = k)
    {table : List ρ} (h : (table.map key).Nodup) :
    ((upsert key k change new table).map key).Nodup := by
  rw [map_key_upsert hc hn]
  by_cases hk : k ∈ table.map key
  · rwa [if_pos hk]
  · rw [if_neg hk]
    exact List.nodup_append.mpr ⟨h, List.nodup_singleton k, by
      rintro a ha b hb rfl
      exact hk (List.mem_singleton.mp hb ▸ ha)⟩

/-- With distinct keys an entry of the table is the entry of its key. -/
theorem entry_of_mem {table : List ρ} (h : (table.map key).Nodup) {r : ρ} (hr : r ∈ table) :
    entry key (key r) table = some r :=
  Overwrite.find?_eq_some_of_nodup h hr

/-- Changing all entries. -/
theorem entry_map {f : ρ → ρ} (hf : ∀ r, key (f r) = key r) (table : List ρ) :
    entry key k (table.map f) = (entry key k table).map f := by
  induction table with
  | nil => rfl
  | cons r rs ih =>
    rw [List.map_cons, entry_cons, entry_cons, hf, ih]
    split_ifs <;> rfl

/-- Changing the entry at a place. -/
theorem entry_modify {f : ρ → ρ} (hf : ∀ r, key (f r) = key r) {table : List ρ}
    (h : (table.map key).Nodup) (i : ℕ) :
    entry key k (table.modify i f) =
      (entry key k table).map (if table[i]?.map key = some k then f else id) := by
  induction table generalizing i with
  | nil => simp
  | cons r rs ih =>
    rw [List.map_cons, List.nodup_cons] at h
    cases i with
    | zero =>
      rw [List.modify_zero_cons, entry_cons, entry_cons, hf, List.getElem?_cons_zero,
        Option.map_some]
      by_cases hk : key r = k <;> simp [hk]
    | succ i =>
      rw [List.modify_succ_cons, entry_cons, entry_cons, List.getElem?_cons_succ, ih h.2]
      by_cases hk : key r = k
      · have hne : ¬ rs[i]?.map key = some k := by
          intro hi
          rw [← List.getElem?_map] at hi
          exact h.1 (hk ▸ List.mem_of_getElem? hi)
        rw [if_pos hk, if_pos hk, if_neg hne]
        rfl
      · rw [if_neg hk, if_neg hk]

omit [DecidableEq κ] in
theorem map_key_modify {f : ρ → ρ} (hf : ∀ r, key (f r) = key r) (table : List ρ) (i : ℕ) :
    (table.modify i f).map key = table.map key := by
  induction table generalizing i with
  | nil => simp
  | cons r rs ih =>
    cases i with
    | zero => rw [List.modify_zero_cons, List.map_cons, List.map_cons, hf]
    | succ i => rw [List.modify_succ_cons, List.map_cons, List.map_cons, ih]

/-! ### Sequences of operations -/

section Sequence
variable (key) (change : ι → ρ → ρ) (new : κ → ι → ρ)

/-- The table after operations, each with the key it is for. -/
def upserts (table : List ρ) : List (κ × ι) → List ρ
  | [] => table
  | x :: xs => upserts (upsert key x.1 (change x.2) (new x.1 x.2) table) xs

/-- What an operation with key `k` makes of the entry of `k`. -/
def touch (k : κ) (o : Option ρ) (i : ι) : Option ρ := some (o.elim (new k i) (change i))

variable {key change new} (hc : ∀ i r, key (change i r) = key r) (hn : ∀ k i, key (new k i) = k)
include hc hn

/-- The entry of a key depends on the operations with that key alone. -/
theorem entry_upserts (k : κ) (table : List ρ) (xs : List (κ × ι)) :
    entry key k (upserts key change new table xs) =
      (Interleave.own k xs).foldl (touch change new k) (entry key k table) := by
  induction xs generalizing table with
  | nil => rfl
  | cons x xs ih =>
    obtain ⟨j, i⟩ := x
    have hj : ∀ r, key r = j → key (change i r) = j := fun r hr => (hc i r).trans hr
    rw [upserts, ih]
    by_cases h : j = k
    · subst h
      rw [Interleave.own_cons_self, List.foldl_cons, entry_upsert_self hj (hn j i)]
      rfl
    · rw [Interleave.own_cons_of_ne h, entry_upsert_of_ne hj (hn j i) (Ne.symm h)]

theorem nodup_upserts {table : List ρ} (h : (table.map key).Nodup) (xs : List (κ × ι)) :
    ((upserts key change new table xs).map key).Nodup := by
  induction xs generalizing table with
  | nil => exact h
  | cons x xs ih => exact ih (nodup_upsert (fun r hr => (hc x.2 r).trans hr) (hn x.1 x.2) h)

omit [DecidableEq κ] hc hn in
theorem foldl_touch (k : κ) (i : ι) (is : List ι) :
    (i :: is).foldl (touch change new k) none =
      some (is.foldl (fun r i => change i r) (new k i)) := by
  have hsome : ∀ r, is.foldl (touch change new k) (some r) =
      some (is.foldl (fun r i => change i r) r) := by
    induction is with
    | nil => exact fun r => rfl
    | cons j is ih => exact fun r => ih (change j r)
  exact hsome (new k i)

/-- Started empty, the table holds for each key that came what its operations make of the first
of them, and nothing else. -/
theorem entry_upserts_nil (k : κ) (xs : List (κ × ι)) :
    entry key k (upserts key change new [] xs) =
      match Interleave.own k xs with
      | [] => none
      | i :: is => some (is.foldl (fun r i => change i r) (new k i)) := by
  rw [entry_upserts hc hn, entry_nil]
  cases Interleave.own k xs with
  | nil => rfl
  | cons i is => exact foldl_touch k i is

end Sequence

end DdsBenchmark.Upsert
