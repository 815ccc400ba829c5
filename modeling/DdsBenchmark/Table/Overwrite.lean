import Mathlib.Data.List.Nodup
import Mathlib.Data.List.Basic

/-! A table searched by key while it is overwritten from the front. After `i` cells have been
written the table holds the new entries below `i` and the old ones from `i` on; a search
bounded by the old count finds an old entry exactly when no new entry with its key was
written before it was reached. -/

namespace DdsBenchmark.Overwrite

variable {α κ : Type*}

/-- The table after the first `i` cells have been overwritten. -/
def overwritten (cur old : List α) (i : ℕ) : List α := cur.take i ++ old.drop i

@[simp] theorem overwritten_zero (cur old : List α) : overwritten cur old 0 = old := rfl

theorem overwritten_length (cur old : List α) :
    overwritten cur old cur.length = cur ++ old.drop cur.length := by
  rw [overwritten, List.take_length]

/-- Once all new entries are written they head the table. -/
theorem take_overwritten_of_length_eq (cur old : List α) {n : ℕ} (h : cur.length = n) :
    (overwritten cur old n).take n = cur := by
  rw [← h, overwritten_length, List.take_left]

/-- Writing the next cell. -/
theorem overwritten_set {cur old : List α} {i : ℕ} {c : α} (hc : cur[i]? = some c)
    (ho : i < old.length) :
    (overwritten cur old i).set i c = overwritten cur old (i + 1) := by
  obtain ⟨hi, rfl⟩ := List.getElem?_eq_some_iff.mp hc
  have hl : (cur.take i).length = i := List.length_take_of_le (Nat.le_of_lt hi)
  rw [overwritten, overwritten, List.set_append_right _ _ (Nat.le_of_eq hl), hl, Nat.sub_self,
    List.drop_eq_getElem_cons ho, List.set_cons_zero, List.take_succ_eq_append_getElem hi,
    List.append_assoc, List.singleton_append]

/-- The entries the search still looks at. -/
theorem take_overwritten {cur : List α} (old : List α) {i : ℕ} (hc : i ≤ cur.length)
    (count : ℕ) :
    (overwritten cur old i).take count = (cur.take i).take count ++ (old.take count).drop i := by
  rw [overwritten, List.take_append, List.length_take_of_le hc, List.drop_take]

section Search
variable [DecidableEq κ]

/-- The first of the first `count` entries with key `k`. -/
def search (key : α → κ) (table : List α) (count : ℕ) (k : κ) : Option α :=
  (table.take count).find? (key · = k)

theorem key_of_search {key : α → κ} {table : List α} {count : ℕ} {k : κ} {e : α}
    (h : search key table count k = some e) : key e = k := by
  simpa using List.find?_some h

/-- What a search finds was just written or is an old entry not yet overwritten. -/
theorem mem_of_search_overwritten {key : α → κ} {cur old : List α} {i count : ℕ} {k : κ} {e : α}
    (hc : i ≤ cur.length) (h : search key (overwritten cur old i) count k = some e) :
    e ∈ cur.take i ∨ e ∈ (old.take count).drop i := by
  have hm := List.mem_of_find?_eq_some h
  rw [take_overwritten old hc] at hm
  exact (List.mem_append.mp hm).imp_left fun hh => List.mem_of_mem_take hh

/-- A key not written yet is searched among the old entries not yet overwritten. -/
theorem search_overwritten {key : α → κ} {cur : List α} (old : List α) {i : ℕ} {k : κ}
    (hc : i ≤ cur.length) (hnew : ∀ c ∈ cur.take i, key c ≠ k) (count : ℕ) :
    search key (overwritten cur old i) count k = ((old.take count).drop i).find? (key · = k) := by
  have hnone : ((cur.take i).take count).find? (key · = k) = none := by
    rw [List.find?_eq_none]
    intro c hm
    simpa using hnew c (List.mem_of_mem_take hm)
  rw [search, take_overwritten old hc, List.find?_append, hnone, Option.none_or]

/-- An entry that is the only one with its key is found. -/
theorem find?_eq_some_of_unique {key : α → κ} {es : List α} {e : α} (he : e ∈ es)
    (huniq : ∀ d ∈ es, key d = key e → d = e) : es.find? (key · = key e) = some e := by
  cases hf : es.find? (key · = key e) with
  | none => exact absurd (List.find?_eq_none.mp hf e he) (by simp)
  | some d =>
    have hk : key d = key e := by simpa using List.find?_some hf
    rw [huniq d (List.mem_of_find?_eq_some hf) hk]

/-- Among entries with distinct keys the search finds the one at hand. -/
theorem find?_eq_some_of_nodup {key : α → κ} {es : List α} (hnd : (es.map key).Nodup) {e : α}
    (he : e ∈ es) : es.find? (key · = key e) = some e :=
  find?_eq_some_of_unique he fun _ hd hk => List.inj_on_of_nodup_map hnd hd he hk

/-- An old entry is found as long as its own cell has not been overwritten. -/
theorem search_overwritten_of_le {key : α → κ} {cur old : List α} {i j count : ℕ} {e : α}
    (hc : i ≤ cur.length) (hnew : ∀ c ∈ cur.take i, key c ≠ key e)
    (hnd : ((old.take count).map key).Nodup) (he : (old.take count)[j]? = some e) (hij : i ≤ j) :
    search key (overwritten cur old i) count (key e) = some e := by
  rw [search_overwritten old hc hnew]
  refine find?_eq_some_of_nodup ?_ ?_
  · rw [List.map_drop]
    exact hnd.sublist (List.drop_sublist _ _)
  · refine List.mem_of_getElem? (i := j - i) ?_
    rw [List.getElem?_drop, show i + (j - i) = j by omega, he]

/-- An old entry is lost once its cell has been overwritten. -/
theorem search_overwritten_of_lt {key : α → κ} {cur old : List α} {i j count : ℕ} {e : α}
    (hc : i ≤ cur.length) (hnew : ∀ c ∈ cur.take i, key c ≠ key e)
    (hnd : ((old.take count).map key).Nodup) (he : (old.take count)[j]? = some e) (hji : j < i) :
    search key (overwritten cur old i) count (key e) = none := by
  rw [search_overwritten old hc hnew, List.find?_eq_none]
  intro d hd
  obtain ⟨m, hm⟩ := List.mem_iff_getElem?.mp hd
  rw [List.getElem?_drop] at hm
  have hne : key d ≠ key e := by
    intro hk
    have hdup : ((old.take count).map key)[i + m]? = ((old.take count).map key)[j]? := by
      rw [List.getElem?_map, List.getElem?_map, hm, he, Option.map_some, Option.map_some, hk]
    have hlt : i + m < ((old.take count).map key).length := by
      rw [List.length_map]
      exact (List.getElem?_eq_some_iff.mp hm).1
    have := (List.nodup_iff_getElem?_ne_getElem?.mp hnd j (i + m) (by omega) hlt)
    exact this hdup.symm
  simpa using hne

end Search

end DdsBenchmark.Overwrite
