import Mathlib.Data.List.Nodup

/-! Singly linked chains in a heap. A cell carries a value and the address behind its `next`
pointer; a chain is what following `next` from some pointer visits before the null pointer.
Writing outside a chain leaves it, a chain has no cell twice, its head can be taken off and a
fresh last cell can be hung behind its last one. -/

namespace DdsBenchmark.Memory

variable {ι α : Type}

/-- A cell of the heap. -/
structure Cell (ι α : Type) where
  value : α
  next : Option ι

/-- The allocated cells by their addresses. -/
abbrev Heap (ι α : Type) := ι → Option (Cell ι α)

/-- Following `next` from `p` visits the addresses of `xs`, which hold the values of `xs`. -/
def Chain (heap : Heap ι α) : Option ι → List (ι × α) → Prop
  | p, [] => p = none
  | p, x :: xs => p = some x.1 ∧ ∃ next, heap x.1 = some ⟨x.2, next⟩ ∧ Chain heap next xs

/-- The addresses of a chain. -/
def addresses (xs : List (ι × α)) : List ι := xs.map Prod.fst

@[simp] theorem addresses_nil : addresses ([] : List (ι × α)) = [] := rfl

@[simp] theorem addresses_cons (x : ι × α) (xs : List (ι × α)) :
    addresses (x :: xs) = x.1 :: addresses xs := rfl

@[simp] theorem addresses_append (xs ys : List (ι × α)) :
    addresses (xs ++ ys) = addresses xs ++ addresses ys := List.map_append

section Chain

variable {heap heap' : Heap ι α} {p : Option ι} {xs ys : List (ι × α)}

@[simp] theorem chain_none_iff : Chain heap none xs ↔ xs = [] := by
  cases xs <;> simp [Chain]

theorem chain_some_iff {a : ι} :
    Chain heap (some a) xs ↔
      ∃ v next rest, xs = (a, v) :: rest ∧ heap a = some ⟨v, next⟩ ∧ Chain heap next rest := by
  constructor
  · intro h
    cases xs with
    | nil => cases h
    | cons x rest =>
      obtain ⟨hx, next, hcell, hrest⟩ := h
      obtain ⟨b, v⟩ := x
      cases hx
      exact ⟨v, next, rest, rfl, hcell, hrest⟩
  · rintro ⟨v, next, rest, rfl, hcell, hrest⟩
    exact ⟨rfl, next, hcell, hrest⟩

/-- Only the cells on the chain matter. -/
theorem Chain.congr (h : Chain heap p xs) (hsame : ∀ a ∈ addresses xs, heap' a = heap a) :
    Chain heap' p xs := by
  induction xs generalizing p with
  | nil => exact h
  | cons x xs ih =>
    obtain ⟨hx, next, hcell, hrest⟩ := h
    refine ⟨hx, next, ?_, ih hrest fun a ha => hsame a (List.mem_cons_of_mem _ ha)⟩
    rw [hsame x.1 List.mem_cons_self, hcell]

theorem Chain.update [DecidableEq ι] (h : Chain heap p xs) {a : ι} (ha : a ∉ addresses xs)
    (c : Option (Cell ι α)) : Chain (Function.update heap a c) p xs := by
  apply h.congr
  intro b hb
  have hba : b ≠ a := by
    rintro rfl
    exact ha hb
  exact Function.update_of_ne hba ..

/-- A pointer determines its chain. -/
theorem Chain.unique (hx : Chain heap p xs) (hy : Chain heap p ys) : xs = ys := by
  induction xs generalizing p ys with
  | nil =>
    cases hx
    exact (chain_none_iff.mp hy).symm
  | cons x xs ih =>
    obtain ⟨rfl, next, hcell, hrest⟩ := hx
    obtain ⟨v, next', rest, rfl, hcell', hrest'⟩ := chain_some_iff.mp hy
    have hsame := Option.some.inj (hcell.symm.trans hcell')
    injection hsame with hv hn
    subst hn
    rw [ih hrest hrest', ← hv]

/-- From a cell of a chain, the chain goes on with what stands behind that cell. -/
theorem Chain.suffix_at (h : Chain heap p (xs ++ ys)) : ∃ q, Chain heap q ys := by
  induction xs generalizing p with
  | nil => exact ⟨p, h⟩
  | cons x xs ih =>
    obtain ⟨-, next, -, hrest⟩ := h
    exact ih hrest

/-- A chain has no cell twice, since it would not end. -/
theorem Chain.nodup (h : Chain heap p xs) : (addresses xs).Nodup := by
  induction xs generalizing p with
  | nil => exact List.nodup_nil
  | cons x xs ih =>
    have hrest := h
    obtain ⟨hp, next, hcell, htail⟩ := hrest
    refine List.nodup_cons.mpr ⟨fun hmem => ?_, ih htail⟩
    obtain ⟨y, hy, hyx⟩ := List.mem_map.mp hmem
    obtain ⟨before, behind, rfl⟩ := List.append_of_mem hy
    obtain ⟨q, hq⟩ := htail.suffix_at
    have hqx : q = p := by rw [hp, ← hyx]; exact hq.1
    have hlen := congrArg List.length (Chain.unique (hqx ▸ hq) h)
    simp only [List.length_cons, List.length_append] at hlen
    omega

theorem Chain.cell_of_mem (h : Chain heap p xs) {x : ι × α} (hx : x ∈ xs) :
    ∃ next, heap x.1 = some ⟨x.2, next⟩ := by
  induction xs generalizing p with
  | nil => cases hx
  | cons y xs ih =>
    obtain ⟨-, next, hcell, hrest⟩ := h
    cases hx with
    | head => exact ⟨next, hcell⟩
    | tail _ hx => exact ih hrest hx

/-- A cell whose `next` is null makes a chain of one. -/
theorem chain_single {a : ι} {v : α} (h : heap a = some ⟨v, none⟩) :
    Chain heap (some a) [(a, v)] := ⟨rfl, none, h, rfl⟩

/-- Redirecting the last `next` of a chain hangs another chain behind it. -/
theorem Chain.hang [DecidableEq ι] {a : ι} {v : α} {b : ι}
    (h : Chain heap p (xs ++ [(a, v)])) (hy : Chain heap (some b) ys)
    (hay : a ∉ addresses ys) :
    Chain (Function.update heap a (some ⟨v, some b⟩)) p (xs ++ (a, v) :: ys) := by
  induction xs generalizing p with
  | nil =>
    refine ⟨h.1, some b, Function.update_self .., hy.update hay _⟩
  | cons x xs ih =>
    have hnodup := h.nodup
    obtain ⟨hp, next, hcell, hrest⟩ := h
    have hxa : x.1 ≠ a := by
      rintro rfl
      simp at hnodup
    exact ⟨hp, next, (Function.update_of_ne hxa ..).trans hcell, ih hrest⟩

end Chain

end DdsBenchmark.Memory
