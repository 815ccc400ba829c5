import DdsBenchmark.Cputime.Monitor

/-! The stat line of a thread. Behind the identifier stands the name of the thread, which is
free text in parentheses; the state and the numbers follow behind single spaces. Reading from
the last parenthesis on finds the fields 14 and 15 whatever the name is made of, and whatever
the buffer cuts off behind them. -/

namespace DdsBenchmark.Cputime

open CLib

/-- A decimal integer as the kernel prints it. -/
def isDecimal : List Char → Bool
  | '-' :: digits => digits ≠ [] && digits.all Char.isDigit
  | digits => digits ≠ [] && digits.all Char.isDigit

theorem digits_of_isDecimal {f : List Char} (h : isDecimal f) :
    f ≠ [] ∧ ∀ c ∈ f, c = '-' ∨ c.isDigit := by
  unfold isDecimal at h
  split at h
  · simp only [Bool.and_eq_true, List.all_eq_true] at h
    exact ⟨List.cons_ne_nil _ _, fun c hc => (List.mem_cons.mp hc).imp_right (h.2 c)⟩
  · simp only [Bool.and_eq_true, List.all_eq_true, decide_eq_true_eq] at h
    exact ⟨h.1, fun c hc => Or.inr (h.2 c hc)⟩

/-- The line of one thread; `fields` holds the fields 4 to 52. -/
structure StatLine where
  tid : List Char
  comm : List Char
  state : Char
  fields : List (List Char)
  tid_decimal : isDecimal tid
  comm_newline : '\n' ∉ comm
  comm_nul : Char.ofNat 0 ∉ comm
  state_letter : state.isAlpha
  fields_decimal : ∀ f ∈ fields, isDecimal f
  length_fields : fields.length = 49

namespace StatLine
variable (s : StatLine)

/-- The fields from the third on. -/
def words : List (List Char) := [s.state] :: s.fields

def field (n : ℕ) : List Char := s.words.getD (n - 3) []

/-- The identifier and the name, up to its closing parenthesis. -/
def head : List Char := s.tid ++ ' ' :: '(' :: s.comm

/-- The text up to the end of field `n`. -/
def upTo (n : ℕ) : List Char := s.head ++ ')' :: (s.words.take (n - 2)).flatMap (' ' :: ·)

def text : List Char := s.head ++ ')' :: s.words.flatMap (' ' :: ·) ++ ['\n']

variable {s}

/-- A word is made of one letter, or of digits with a sign. -/
theorem word_ok {w : List Char} (hw : w ∈ s.words) :
    w ≠ [] ∧ ∀ c ∈ w, c.isAlpha ∨ c = '-' ∨ c.isDigit := by
  obtain rfl | hw := List.mem_cons.mp hw
  · refine ⟨List.cons_ne_nil _ _, fun c hc => Or.inl ?_⟩
    rw [List.mem_singleton.mp hc]
    exact s.state_letter
  · obtain ⟨hne, hall⟩ := digits_of_isDecimal (s.fields_decimal w hw)
    exact ⟨hne, fun c hc => Or.inr (hall c hc)⟩

theorem not_mem_word {w : List Char} (hw : w ∈ s.words) {c : Char}
    (hc : (c.isAlpha || c = '-' || c.isDigit) = false) : c ∉ w := by
  intro hmem
  obtain h | rfl | h := (word_ok hw).2 c hmem <;> simp_all

theorem not_mem_words {words : List (List Char)} (hw : ∀ w ∈ words, w ∈ s.words) {c : Char}
    (hc : (c.isAlpha || c = '-' || c.isDigit) = false) (hne : c ≠ ' ') :
    c ∉ words.flatMap (' ' :: ·) := by
  intro hmem
  obtain ⟨w, hmemw, hc'⟩ := List.mem_flatMap.mp hmem
  exact not_mem_word (hw w hmemw) hc ((List.mem_cons.mp hc').resolve_left hne)

/-- The text up to a field is free of what neither its words nor its name can hold. -/
theorem not_mem_upTo {c : Char} (hcomm : c ∉ s.comm)
    (hc : (c.isAlpha || c = '-' || c.isDigit) = false) (hblank : c ≠ ' ')
    (hparen : c ≠ '(' ∧ c ≠ ')') (n : ℕ) : c ∉ s.upTo n := by
  have htid : c ∉ s.tid := by
    intro hmem
    obtain rfl | h := (digits_of_isDecimal s.tid_decimal).2 c hmem <;> simp_all
  have hhead : c ∉ s.head := by simp [head, htid, hcomm, hblank, hparen.1]
  have hwords : ∀ w ∈ s.words.take (n - 2), w ∈ s.words := fun w => List.mem_of_mem_take
  simp only [upTo, List.mem_append, List.mem_cons, not_or]
  exact ⟨hhead, hparen.2, not_mem_words hwords hc hblank⟩

/-- What the fields up to `n` leave of the line. -/
theorem text_eq (n : ℕ) :
    s.text = s.upTo n ++ ((s.words.drop (n - 2)).flatMap (' ' :: ·) ++ ['\n']) := by
  have hwords : s.words.flatMap (' ' :: ·) = (s.words.take (n - 2)).flatMap (' ' :: ·) ++
      (s.words.drop (n - 2)).flatMap (' ' :: ·) := by
    rw [← List.flatMap_append, List.take_append_drop]
  rw [text, upTo, hwords]
  simp

end StatLine

/-- The loop goes past the tokens before the twelfth. -/
theorem statFields_drop (clkTck : ℕ) (k : ℕ) {field : ℕ} (hk : field + k < 12)
    {tokens : List (List Char)} (hlen : k ≤ tokens.length) (times : ℚ × ℚ) :
    statFields clkTck field tokens times =
      statFields clkTck (field + k) (tokens.drop k) times := by
  induction k generalizing field tokens with
  | zero => rfl
  | succ k ih =>
    cases tokens with
    | nil => exact absurd hlen (Nat.not_succ_le_zero k)
    | cons token tokens =>
      obtain ⟨utime, stime⟩ := times
      rw [statFields, if_neg (by omega), if_neg (by omega),
        ih (by omega) (Nat.le_of_succ_le_succ hlen), List.drop_succ_cons, Nat.add_assoc,
        Nat.add_comm 1 k]

/-- The loop converts the tokens twelve and thirteen. -/
theorem statFields_eq (clkTck : ℕ) {tokens : List (List Char)} {t₁₂ t₁₃ : List Char}
    (h₁₂ : tokens[11]? = some t₁₂) (h₁₃ : tokens[12]? = some t₁₃) (times : ℚ × ℚ) :
    statFields clkTck 0 tokens times = (atof t₁₂ / clkTck, atof t₁₃ / clkTck) := by
  obtain ⟨hlen, rfl⟩ := List.getElem?_eq_some_iff.mp h₁₃
  obtain ⟨_, rfl⟩ := List.getElem?_eq_some_iff.mp h₁₂
  rw [statFields_drop clkTck 11 (by decide) (by omega), List.drop_eq_getElem_cons (by omega),
    List.drop_eq_getElem_cons hlen]
  rfl

namespace StatLine
variable {s : StatLine}

/-- The tokens behind the last parenthesis of what the first call reads. -/
theorem tokens_of_fits (hfits : (s.upTo 15).length ≤ 1023) :
    ∃ buf p more, (fgetsLines 1023 1023 s.text).head? = some buf ∧
      strrchr ')' (cstr buf) = some p ∧ strtok ' ' p.tail = s.words.take 13 ++ more := by
  have htake : ∀ w ∈ s.words.take 13, w ∈ s.words := fun w => List.mem_of_mem_take
  have hdrop : ∀ w ∈ s.words.drop 13, w ∈ s.words := fun w => List.mem_of_mem_drop
  have hnewline : '\n' ∉ s.upTo 15 :=
    not_mem_upTo s.comm_newline (by decide) (by decide) (by decide) 15
  have hnul : Char.ofNat 0 ∉ s.upTo 15 :=
    not_mem_upTo s.comm_nul (by decide) (by decide) (by decide) 15
  -- the buffer holds the fields up to the fifteenth, and some of what stands behind them
  obtain ⟨more, hmore, hbuf⟩ := head?_fgetsLines hnewline hfits (by simp [upTo])
    ((s.words.drop 13).flatMap (' ' :: ·) ++ ['\n'])
  obtain ⟨cut, hcut⟩ : ∃ cut, cut = cstr more := ⟨_, rfl⟩
  have hcutmore : cut <+: more := hcut ▸ List.takeWhile_prefix _
  have hpre := hcutmore.trans hmore
  have hparen : ')' ∉ (s.words.take 13).flatMap (' ' :: ·) ++ cut := by
    rw [List.mem_append, not_or]
    refine ⟨not_mem_words htake (by decide) (by decide), fun hmem => ?_⟩
    have hmem := List.mem_append.mp (hpre.subset hmem)
    exact hmem.elim (not_mem_words hdrop (by decide) (by decide)) (by decide)
  have hhead : cut = [] ∨ cut.head? = some ' ' := by
    have hlen : 0 < (s.words.drop 13).length := by
      rw [List.length_drop, words, List.length_cons, s.length_fields]
      decide
    obtain ⟨w, ws, hws⟩ := List.exists_cons_of_length_pos hlen
    rw [hws, List.flatMap_cons] at hpre
    cases cut with
    | nil => exact Or.inl rfl
    | cons c cut => exact Or.inr (congrArg some (List.cons_prefix_cons.mp hpre).1)
  have hchr : strrchr ')' (cstr (s.upTo 15 ++ more)) =
      some (')' :: ((s.words.take 13).flatMap (' ' :: ·) ++ cut)) := by
    rw [cstr_append hnul, ← hcut, upTo, List.append_assoc, List.cons_append]
    exact strrchr_append hparen s.head
  rw [← text_eq 15] at hbuf
  exact ⟨_, _, _, hbuf, hchr, strtok_flatMap (fun w hw => ⟨(word_ok (htake w hw)).1,
    not_mem_word (htake w hw) (by decide)⟩) hhead⟩

end StatLine

/-- The times of a thread are those of the fields 14 and 15 of its line, whatever its name. -/
theorem readThreadStat_text (s : StatLine) (hfits : (s.upTo 15).length ≤ 1023) (clkTck : ℕ)
    (times : ℚ × ℚ) :
    ∃ buf p, (fgetsLines 1023 1023 s.text).head? = some buf ∧
      strrchr ')' (cstr buf) = some p ∧
      (strtok ' ' p.tail)[11]? = some (s.field 14) ∧
      (strtok ' ' p.tail)[12]? = some (s.field 15) ∧
      readThreadStat (some s.text) clkTck times =
        (true, atof (s.field 14) / clkTck, atof (s.field 15) / clkTck) := by
  obtain ⟨buf, p, more, hbuf, hp, htokens⟩ := StatLine.tokens_of_fits hfits
  have hwords : s.words.length = 50 := congrArg Nat.succ s.length_fields
  have hfield : ∀ n, 3 ≤ n → n ≤ 15 → (strtok ' ' p.tail)[n - 3]? = some (s.field n) := by
    intro n h₁ h₂
    rw [htokens, List.getElem?_append_left (by rw [List.length_take]; omega),
      List.getElem?_take_of_lt (by omega), StatLine.field, List.getD_eq_getElem?_getD,
      List.getElem?_eq_getElem (by omega), Option.getD_some]
  have h₁₄ := hfield 14 (by decide) (by decide)
  have h₁₅ := hfield 15 (by decide) (by decide)
  refine ⟨buf, p, hbuf, hp, h₁₄, h₁₅, ?_⟩
  rw [readThreadStat]
  simp only [hbuf, hp, statFields_eq clkTck h₁₄ h₁₅]

/-- A thread whose name imitates the fields of a stat line. -/
def imitator : StatLine where
  tid := "4711".toList
  comm := "a) R 1 2 (b) S 3".toList
  state := 'S'
  fields := "1 1 1 0 -1 4194304 0 0 0 0 250 75".toList.splitOn ' ' ++ List.replicate 37 ['0']
  tid_decimal := by decide +kernel
  comm_newline := by decide +kernel
  comm_nul := by decide +kernel
  state_letter := by decide +kernel
  fields_decimal := by decide +kernel
  length_fields := by decide +kernel

/-- 250 and 75 ticks at 100 ticks a second. -/
theorem readThreadStat_imitator :
    readThreadStat (some imitator.text) 100 (0, 0) = (true, 5 / 2, 3 / 4) := by
  obtain ⟨_, _, _, _, _, _, h⟩ := readThreadStat_text imitator (by decide +kernel) 100 (0, 0)
  rw [h]
  decide +kernel

end DdsBenchmark.Cputime
