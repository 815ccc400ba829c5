import Mathlib.Data.List.TakeWhile

/-! `getopt` as GNU specifies it, for an option string that lists short options without optional
arguments and asks for no other order: operands are passed over and moved behind the options, a
word may hold several options, the argument of an option is the rest of its word or else the
next word, and `--` ends the options. Beside the function stands the grammar of the words it
accepts; what successive calls return is what the grammar reads, up to the first word that it
cannot read. -/

namespace DdsBenchmark.CLib

/-- How an option string lists a character: not at all, or as an option with or without an
argument. -/
def takesArgument (optstring : List Char) (c : Char) : Option Bool :=
  if c = ':' ∨ c = ';' then none
  else match optstring.dropWhile (· ≠ c) with
    | [] => none
    | _ :: rest => some (rest.head? = some ':')

theorem mem_of_takesArgument {optstring : List Char} {c : Char}
    (h : takesArgument optstring c ≠ none) : c ∈ optstring ∧ c ≠ ':' ∧ c ≠ ';' := by
  unfold takesArgument at h
  split_ifs at h with hc
  · exact absurd rfl h
  · refine ⟨by_contra fun hmem => h ?_, not_or.mp hc⟩
    have hne : ∀ x ∈ optstring, decide (x ≠ c) = true :=
      fun x hx => decide_eq_true fun he => hmem (he ▸ hx)
    rw [List.dropWhile_eq_nil_iff.mpr hne]

/-- What `getopt` keeps between calls: the rest of the word being read, the words not yet
read, and the operands passed over. -/
structure Getopt where
  nextchar : List Char
  words : List (List Char)
  operands : List (List Char)

/-- An option with the argument it came with. -/
abbrev Opt := Char × Option (List Char)

/-- What one call returns; both `invalid` and `missing` are the character `?`. -/
inductive GetoptResult where
  | opt (o : Opt)
  | invalid (c : Char)
  | missing (c : Char)
  | done

/-- The options of a word that starts like one. -/
def cluster : List Char → Option (Char × List Char)
  | '-' :: c :: cs => some (c, cs)
  | _ => none

theorem cluster_eq_some_iff {w cs : List Char} {c : Char} :
    cluster w = some (c, cs) ↔ w = '-' :: c :: cs := by
  unfold cluster
  split <;> simp_all

section Getopt
variable (optstring : List Char)

/-- One character of a word of options, `cs` behind it. -/
def takeChar (c : Char) (cs : List Char) (words operands : List (List Char)) :
    GetoptResult × Getopt :=
  match takesArgument optstring c with
  | none => (.invalid c, ⟨cs, words, operands⟩)
  | some false => (.opt (c, none), ⟨cs, words, operands⟩)
  | some true =>
    if cs ≠ [] then (.opt (c, some cs), ⟨[], words, operands⟩)
    else match words with
      | [] => (.missing c, ⟨[], [], operands⟩)
      | w :: words => (.opt (c, some w), ⟨[], words, operands⟩)

/-- The next word of options. -/
def takeWord : List (List Char) → List (List Char) → GetoptResult × Getopt
  | [], operands => (.done, ⟨[], [], operands⟩)
  | w :: words, operands =>
    if w = ['-', '-'] then (.done, ⟨[], [], operands ++ words⟩)
    else match cluster w with
      | some (c, cs) => takeChar optstring c cs words operands
      | none => takeWord words (operands ++ [w])

def getopt (s : Getopt) : GetoptResult × Getopt :=
  match s.nextchar with
  | c :: cs => takeChar optstring c cs s.words s.operands
  | [] => takeWord optstring s.words s.operands

/-- How much there is left to read. -/
def Getopt.size (s : Getopt) : ℕ := s.nextchar.length + s.words.flatten.length + s.words.length

variable {optstring}

theorem size_takeChar_lt {c : Char} {cs : List Char} {words operands : List (List Char)} {o : Opt}
    {s : Getopt} (h : takeChar optstring c cs words operands = (.opt o, s)) :
    s.size < cs.length + 1 + words.flatten.length + words.length := by
  unfold takeChar at h
  split at h
  · cases h
  · cases h
    simp only [Getopt.size]
    omega
  · split at h
    · cases h
      simp only [Getopt.size, List.length_nil]
      omega
    · split at h
      · cases h
      · cases h
        simp only [Getopt.size, List.length_nil, List.flatten_cons, List.length_append,
          List.length_cons]
        omega

theorem size_takeWord_lt {words operands : List (List Char)} {o : Opt} {s : Getopt}
    (h : takeWord optstring words operands = (.opt o, s)) :
    s.size < words.flatten.length + words.length := by
  induction words generalizing operands with
  | nil => cases h
  | cons w words ih =>
    rw [takeWord] at h
    rw [List.flatten_cons, List.length_append, List.length_cons]
    split_ifs at h with hw
    · cases h
    · split at h
      · next hcluster =>
        have hh := size_takeChar_lt h
        rw [cluster_eq_some_iff.mp hcluster, List.length_cons, List.length_cons]
        omega
      · have hh := ih h
        omega

/-- Every option returned has been read. -/
theorem size_getopt_lt {s s' : Getopt} {o : Opt} (h : getopt optstring s = (.opt o, s')) :
    s'.size < s.size := by
  unfold getopt at h
  unfold Getopt.size
  split at h
  · next hnext =>
    rw [hnext]
    exact size_takeChar_lt h
  · next hnext =>
    rw [hnext, List.length_nil, Nat.zero_add]
    exact size_takeWord_lt h

theorem takesArgument_of_takeChar {c : Char} {cs : List Char} {words operands : List (List Char)}
    {o : Opt} {s : Getopt} (h : takeChar optstring c cs words operands = (.opt o, s)) :
    takesArgument optstring o.1 = some o.2.isSome := by
  unfold takeChar at h
  split at h
  · cases h
  · next hc =>
    cases h
    exact hc
  · next hc =>
    split at h
    · cases h
      exact hc
    · split at h
      · cases h
      · cases h
        exact hc

theorem takesArgument_of_takeWord {words operands : List (List Char)} {o : Opt} {s : Getopt}
    (h : takeWord optstring words operands = (.opt o, s)) :
    takesArgument optstring o.1 = some o.2.isSome := by
  induction words generalizing operands with
  | nil => cases h
  | cons w words ih =>
    rw [takeWord] at h
    split_ifs at h
    · cases h
    · split at h
      · exact takesArgument_of_takeChar h
      · exact ih h

/-- Only options of the option string are returned, with an argument where they take one. -/
theorem takesArgument_of_getopt {s s' : Getopt} {o : Opt}
    (h : getopt optstring s = (.opt o, s')) : takesArgument optstring o.1 = some o.2.isSome := by
  unfold getopt at h
  split at h
  · exact takesArgument_of_takeChar h
  · exact takesArgument_of_takeWord h

end Getopt

/-! ### Successive calls -/

/-- What calling until the end returns: the options, whether the end was reached, and the
operands. -/
structure Scan where
  options : List Opt
  complete : Bool
  operands : List (List Char)

/-- More options in front. -/
def Scan.prepend (os : List Opt) (r : Scan) : Scan := { r with options := os ++ r.options }

@[simp] theorem prepend_nil (r : Scan) : r.prepend [] = r := rfl

theorem prepend_append (os os' : List Opt) (r : Scan) :
    r.prepend (os ++ os') = (r.prepend os').prepend os := by
  simp [Scan.prepend]

section Scan
variable (optstring : List Char)

def scan (s : Getopt) : Scan :=
  match _h : getopt optstring s with
  | (.opt o, s') => (scan s').prepend [o]
  | (.done, s') => ⟨[], true, s'.operands⟩
  | (.invalid _, s') => ⟨[], false, s'.operands⟩
  | (.missing _, s') => ⟨[], false, s'.operands⟩
termination_by s.size
decreasing_by exact size_getopt_lt ‹_›

variable {optstring} {s s' : Getopt}

theorem scan_of_opt {o : Opt} (h : getopt optstring s = (.opt o, s')) :
    scan optstring s = (scan optstring s').prepend [o] := by
  rw [scan]
  split <;> simp_all

theorem scan_of_done (h : getopt optstring s = (.done, s')) :
    scan optstring s = ⟨[], true, s'.operands⟩ := by
  rw [scan]
  split <;> simp_all

theorem scan_of_invalid {c : Char} (h : getopt optstring s = (.invalid c, s')) :
    scan optstring s = ⟨[], false, s'.operands⟩ := by
  rw [scan]
  split <;> simp_all

theorem scan_of_missing {c : Char} (h : getopt optstring s = (.missing c, s')) :
    scan optstring s = ⟨[], false, s'.operands⟩ := by
  rw [scan]
  split <;> simp_all

/-- What a call returns decides what all do. -/
theorem scan_congr (h : getopt optstring s = getopt optstring s') :
    scan optstring s = scan optstring s' := by
  rw [scan, scan, h]

theorem takesArgument_of_mem_options (s : Getopt) :
    ∀ o ∈ (scan optstring s).options, takesArgument optstring o.1 = some o.2.isSome := by
  fun_induction scan optstring s with
  | case1 s o s' h ih => exact List.forall_mem_cons.mpr ⟨takesArgument_of_getopt h, ih⟩
  | case2 | case3 | case4 => exact fun _ hm => nomatch hm

end Scan

/-! ### The grammar -/

section Grammar
variable (optstring : List Char)

/-- Options without arguments. -/
def Flags (cs : List Char) : Prop := ∀ c ∈ cs, takesArgument optstring c = some false

def flagOpts (cs : List Char) : List Opt := cs.map fun c => (c, none)

/-- One operand, or one word of options with the argument of its last option: what it reads
and the words behind it. -/
inductive Step : List (List Char) → List Opt → List (List Char) → List (List Char) → Prop
  | operand {w : List Char} (ws : List (List Char)) (hw : w.head? ≠ some '-' ∨ w = ['-']) :
    Step (w :: ws) [] [w] ws
  | flags {cs : List Char} (ws : List (List Char)) (hne : cs ≠ []) (hcs : Flags optstring cs) :
    Step (('-' :: cs) :: ws) (flagOpts cs) [] ws
  | attached {cs arg : List Char} {c : Char} (ws : List (List Char)) (hcs : Flags optstring cs)
    (hc : takesArgument optstring c = some true) (harg : arg ≠ []) :
    Step (('-' :: (cs ++ c :: arg)) :: ws) (flagOpts cs ++ [(c, some arg)]) [] ws
  | separate {cs : List Char} {c : Char} (arg : List Char) (ws : List (List Char))
    (hcs : Flags optstring cs) (hc : takesArgument optstring c = some true) :
    Step (('-' :: (cs ++ [c])) :: arg :: ws) (flagOpts cs ++ [(c, some arg)]) [] ws

/-- Several of them: the options, the operands and the words left. -/
inductive Reads : List (List Char) → List Opt → List (List Char) → List (List Char) → Prop
  | refl (ws : List (List Char)) : Reads ws [] [] ws
  | step {ws ws' ws'' : List (List Char)} {os os' : List Opt} {ps ps' : List (List Char)}
    (h : Step optstring ws os ps ws') (hrest : Reads ws' os' ps' ws'') :
    Reads ws (os ++ os') (ps ++ ps') ws''

/-- A whole list of words; behind `--` all of them are operands. -/
def Parses (ws : List (List Char)) (os : List Opt) (ps : List (List Char)) : Prop :=
  Reads optstring ws os ps [] ∨
    ∃ front rest, Reads optstring ws os front (['-', '-'] :: rest) ∧ ps = front ++ rest

/-- Words that come, once some are read, to a word with this option. -/
def Reaches (ws : List (List Char)) (c : Char) : Prop :=
  ∃ os ps cs rest ws', Reads optstring ws os ps (('-' :: (cs ++ c :: rest)) :: ws') ∧
    Flags optstring (cs ++ [c])

/-- Words that start with one that cannot be read: it holds something that is no option, or
an option whose argument is missing. -/
inductive Stuck : List (List Char) → List Opt → Prop
  | invalid {cs : List Char} {c : Char} (rest : List Char) (ws : List (List Char))
    (hcs : Flags optstring cs) (hc : takesArgument optstring c = none)
    (hword : '-' :: (cs ++ c :: rest) ≠ ['-', '-']) :
    Stuck (('-' :: (cs ++ c :: rest)) :: ws) (flagOpts cs)
  | missing {cs : List Char} {c : Char} (hcs : Flags optstring cs)
    (hc : takesArgument optstring c = some true) :
    Stuck [('-' :: (cs ++ [c]))] (flagOpts cs)

end Grammar

section Correct
variable {optstring : List Char}

/-- Options without arguments are returned one by one. -/
theorem scan_flags {cs : List Char} (hcs : Flags optstring cs) (rest : List Char)
    (ws ps : List (List Char)) :
    scan optstring ⟨cs ++ rest, ws, ps⟩ =
      (scan optstring ⟨rest, ws, ps⟩).prepend (flagOpts cs) := by
  induction cs with
  | nil => rfl
  | cons c cs ih =>
    obtain ⟨hc, hcs⟩ := List.forall_mem_cons.mp hcs
    have hcall : getopt optstring ⟨c :: (cs ++ rest), ws, ps⟩ =
        (.opt (c, none), ⟨cs ++ rest, ws, ps⟩) := by
      simp [getopt, takeChar, hc]
    rw [List.cons_append, scan_of_opt hcall, ih hcs, ← prepend_append]
    rfl

/-- A word of options is read from its second character on. -/
theorem scan_word {cs rest : List Char} (hcs : Flags optstring cs) (hne : cs ++ rest ≠ [])
    (hword : '-' :: (cs ++ rest) ≠ ['-', '-']) (ws ps : List (List Char)) :
    scan optstring ⟨[], ('-' :: (cs ++ rest)) :: ws, ps⟩ =
      (scan optstring ⟨rest, ws, ps⟩).prepend (flagOpts cs) := by
  rw [← scan_flags hcs]
  obtain ⟨c, cs', he⟩ := List.exists_cons_of_ne_nil hne
  rw [he] at hword ⊢
  refine scan_congr ?_
  change takeWord optstring (('-' :: c :: cs') :: ws) ps = _
  rw [takeWord, if_neg hword]
  rfl

theorem scan_operand {w : List Char} (hw : w.head? ≠ some '-' ∨ w = ['-'])
    (ws ps : List (List Char)) :
    scan optstring ⟨[], w :: ws, ps⟩ = scan optstring ⟨[], ws, ps ++ [w]⟩ := by
  have hcluster : cluster w = none := by
    cases hc : cluster w with
    | none => rfl
    | some p =>
      obtain rfl := cluster_eq_some_iff.mp hc
      obtain h | h := hw <;> simp at h
  have hword : w ≠ ['-', '-'] := by
    rintro rfl
    cases hcluster
  refine scan_congr ?_
  change takeWord optstring (w :: ws) ps = _
  rw [takeWord, if_neg hword, hcluster]
  rfl

theorem scan_nil (acc : List (List Char)) :
    scan optstring ⟨[], [], acc⟩ = ⟨[], true, acc⟩ :=
  scan_of_done (show getopt optstring ⟨[], [], acc⟩ = (.done, ⟨[], [], acc⟩) from rfl)

theorem scan_dashes (rest acc : List (List Char)) :
    scan optstring ⟨[], ['-', '-'] :: rest, acc⟩ = ⟨[], true, acc ++ rest⟩ :=
  scan_of_done (show getopt optstring ⟨[], ['-', '-'] :: rest, acc⟩ =
    (.done, ⟨[], [], acc ++ rest⟩) from rfl)

variable (hdash : takesArgument optstring '-' = none)
include hdash

/-- No word that holds an option is the end of the options. -/
theorem word_ne_dashes {cs rest : List Char} {c : Char} (hcs : Flags optstring cs)
    (hc : takesArgument optstring c ≠ none) : '-' :: (cs ++ c :: rest) ≠ ['-', '-'] := by
  intro h
  cases cs with
  | nil =>
    obtain rfl := (List.cons.inj (List.cons.inj h).2).1
    exact hc hdash
  | cons c' cs =>
    obtain rfl := (List.cons.inj (List.cons.inj h).2).1
    exact absurd (hdash.symm.trans (hcs _ List.mem_cons_self)) (by simp)

/-- What the grammar reads in one step is what the calls return. -/
theorem scan_step {ws ws' : List (List Char)} {os : List Opt} {ps : List (List Char)}
    (h : Step optstring ws os ps ws') (acc : List (List Char)) :
    scan optstring ⟨[], ws, acc⟩ = (scan optstring ⟨[], ws', acc ++ ps⟩).prepend os := by
  cases h with
  | operand _ hw => exact scan_operand hw ws' acc
  | @flags cs _ hne hcs =>
    obtain ⟨c, cs', rfl⟩ := List.exists_cons_of_ne_nil hne
    have hc := hcs c List.mem_cons_self
    have hnone : Flags optstring [] := fun _ hm => (nomatch hm)
    have hword : '-' :: (c :: cs') ≠ ['-', '-'] := word_ne_dashes hdash hnone (by simp [hc])
    have hh : scan optstring ⟨[], ('-' :: ((c :: cs') ++ [])) :: ws', acc⟩ = _ :=
      scan_word hcs (by simp) (by simpa using hword) ws' acc
    rwa [List.append_nil] at hh ⊢
  | @attached cs arg c _ hcs hc harg =>
    have hcall : getopt optstring ⟨c :: arg, ws', acc⟩ =
        (.opt (c, some arg), ⟨[], ws', acc⟩) := by
      simp [getopt, takeChar, hc, harg]
    rw [scan_word hcs (by simp) (word_ne_dashes hdash hcs (by simp [hc])), scan_of_opt hcall,
      ← prepend_append, List.append_nil]
  | @separate cs c arg _ hcs hc =>
    have hcall : getopt optstring ⟨[c], arg :: ws', acc⟩ =
        (.opt (c, some arg), ⟨[], ws', acc⟩) := by
      simp [getopt, takeChar, hc]
    rw [scan_word hcs (by simp) (word_ne_dashes hdash hcs (by simp [hc])), scan_of_opt hcall,
      ← prepend_append, List.append_nil]

theorem scan_reads {ws ws' : List (List Char)} {os : List Opt} {ps : List (List Char)}
    (h : Reads optstring ws os ps ws') (acc : List (List Char)) :
    scan optstring ⟨[], ws, acc⟩ = (scan optstring ⟨[], ws', acc ++ ps⟩).prepend os := by
  induction h generalizing acc with
  | refl ws => rw [List.append_nil, prepend_nil]
  | step h _ ih => rw [scan_step hdash h, ih, ← prepend_append, List.append_assoc]

/-- Words that are stuck are rejected. -/
theorem scan_stuck {ws : List (List Char)} {os : List Opt} (h : Stuck optstring ws os)
    (acc : List (List Char)) :
    (scan optstring ⟨[], ws, acc⟩).complete = false ∧
      (scan optstring ⟨[], ws, acc⟩).options = os := by
  cases h with
  | @invalid cs c rest ws hcs hc hword =>
    have hcall : getopt optstring ⟨c :: rest, ws, acc⟩ = (.invalid c, ⟨rest, ws, acc⟩) := by
      simp [getopt, takeChar, hc]
    rw [scan_word hcs (by simp) hword, scan_of_invalid hcall]
    exact ⟨rfl, List.append_nil _⟩
  | @missing cs c hcs hc =>
    have hcall : getopt optstring ⟨[c], [], acc⟩ = (.missing c, ⟨[], [], acc⟩) := by
      simp [getopt, takeChar, hc]
    rw [scan_word hcs (by simp) (word_ne_dashes hdash hcs (by simp [hc])),
      scan_of_missing hcall]
    exact ⟨rfl, List.append_nil _⟩

end Correct

/-! ### Acceptance -/

section Accept
variable (optstring : List Char)

/-- Behind options without arguments comes the end, or something else. -/
theorem flags_or_exists_other (cs : List Char) :
    Flags optstring cs ∨ ∃ front c rest, cs = front ++ c :: rest ∧ Flags optstring front ∧
      takesArgument optstring c ≠ some false := by
  induction cs with
  | nil => exact .inl fun _ hm => nomatch hm
  | cons c cs ih =>
    by_cases hc : takesArgument optstring c = some false
    · obtain hcs | ⟨front, c', rest, rfl, hfront, hc'⟩ := ih
      · exact .inl (List.forall_mem_cons.mpr ⟨hc, hcs⟩)
      · exact .inr ⟨c :: front, c', rest, rfl, List.forall_mem_cons.mpr ⟨hc, hfront⟩, hc'⟩
    · exact .inr ⟨[], c, cs, rfl, fun _ hm => (nomatch hm), hc⟩

/-- Words start with something to read, or with the end of the options, or they are stuck. -/
theorem step_or_stuck (w : List Char) (ws : List (List Char)) :
    w = ['-', '-'] ∨ (∃ os ps ws', Step optstring (w :: ws) os ps ws' ∧
      ws'.length < (w :: ws).length) ∨ ∃ os, Stuck optstring (w :: ws) os := by
  by_cases hdashes : w = ['-', '-']
  · exact .inl hdashes
  by_cases hw : w.head? = some '-'
  · obtain ⟨cs, rfl⟩ := List.head?_eq_some_iff.mp hw
    obtain hcs | ⟨front, c, rest, rfl, hfront, hc⟩ := flags_or_exists_other optstring cs
    · by_cases hne : cs = []
      · exact .inr (.inl ⟨_, _, _, .operand ws (.inr (hne ▸ rfl)), Nat.lt_succ_self _⟩)
      · exact .inr (.inl ⟨_, _, _, .flags ws hne hcs, Nat.lt_succ_self _⟩)
    · match hc' : takesArgument optstring c with
      | none => exact .inr (.inr ⟨_, .invalid rest ws hfront hc' hdashes⟩)
      | some false => exact absurd hc' hc
      | some true =>
        by_cases hrest : rest = []
        · subst hrest
          cases ws with
          | nil => exact .inr (.inr ⟨_, .missing hfront hc'⟩)
          | cons arg ws =>
            refine .inr (.inl ⟨_, _, _, .separate arg ws hfront hc', ?_⟩)
            simp only [List.length_cons]
            omega
        · exact .inr (.inl ⟨_, _, _, .attached ws hfront hc' hrest, Nat.lt_succ_self _⟩)
  · exact .inr (.inl ⟨_, _, _, .operand ws (.inl hw), Nat.lt_succ_self _⟩)

/-- Reading goes on up to the end of the words or of the options, or until it is stuck. -/
theorem exists_reads (ws : List (List Char)) :
    ∃ os ps ws', Reads optstring ws os ps ws' ∧
      (ws' = [] ∨ (∃ rest, ws' = ['-', '-'] :: rest) ∨ ∃ os', Stuck optstring ws' os') := by
  induction hn : ws.length using Nat.strongRecOn generalizing ws with
  | ind n ih =>
    subst hn
    cases ws with
    | nil => exact ⟨_, _, _, .refl [], .inl rfl⟩
    | cons w ws =>
      obtain rfl | ⟨os, ps, ws', hstep, hlt⟩ | hstuck := step_or_stuck optstring w ws
      · exact ⟨_, _, _, .refl _, .inr (.inl ⟨ws, rfl⟩)⟩
      · obtain ⟨os', ps', ws'', hreads, hend⟩ := ih _ hlt ws' rfl
        exact ⟨_, _, _, .step hstep hreads, hend⟩
      · exact ⟨_, _, _, .refl _, .inr (.inr hstuck)⟩

variable {optstring}
variable (hdash : takesArgument optstring '-' = none)
include hdash

theorem scan_of_parses {ws : List (List Char)} {os : List Opt} {ps : List (List Char)}
    (h : Parses optstring ws os ps) : scan optstring ⟨[], ws, []⟩ = ⟨os, true, ps⟩ := by
  obtain h | ⟨front, rest, h, rfl⟩ := h
  · rw [scan_reads hdash h, scan_nil]
    simp [Scan.prepend]
  · rw [scan_reads hdash h, scan_dashes]
    simp [Scan.prepend]

/-- The calls reach the end exactly on the words of the grammar, and they return what it
reads. -/
theorem scan_eq_complete_iff {ws : List (List Char)} {os : List Opt} {ps : List (List Char)} :
    scan optstring ⟨[], ws, []⟩ = ⟨os, true, ps⟩ ↔ Parses optstring ws os ps := by
  refine ⟨fun h => ?_, scan_of_parses hdash⟩
  obtain ⟨os', ps', ws', hreads, hend⟩ := exists_reads optstring ws
  have hparses : Parses optstring ws os ps ∨ ∃ os'', Stuck optstring ws' os'' := by
    obtain rfl | ⟨rest, rfl⟩ | hstuck := hend
    · have hh : Parses optstring ws os' ps' := .inl hreads
      cases (scan_of_parses hdash hh).symm.trans h
      exact .inl hh
    · have hh : Parses optstring ws os' (ps' ++ rest) := .inr ⟨ps', rest, hreads, rfl⟩
      cases (scan_of_parses hdash hh).symm.trans h
      exact .inl hh
    · exact .inr hstuck
  obtain hparses | ⟨os'', hstuck⟩ := hparses
  · exact hparses
  · rw [scan_reads hdash hreads] at h
    have hcomplete : (scan optstring ⟨[], ws', [] ++ ps'⟩).complete = true :=
      congrArg Scan.complete h
    rw [(scan_stuck hdash hstuck _).1] at hcomplete
    cases hcomplete

theorem complete_iff_exists_parses (ws : List (List Char)) :
    (scan optstring ⟨[], ws, []⟩).complete = true ↔ ∃ os ps, Parses optstring ws os ps := by
  simp only [← scan_eq_complete_iff hdash]
  constructor
  · intro h
    exact ⟨_, _, by rw [← h]⟩
  · rintro ⟨os, ps, h⟩
    rw [h]

end Accept

section Reach
variable {optstring : List Char} {c : Char}

/-- A word holds each of the options without argument that it starts with. -/
theorem reaches_of_mem_flagOpts {cs : List Char} (hcs : Flags optstring cs)
    (hc : (c, none) ∈ flagOpts cs) (rest : List Char) (ws : List (List Char)) :
    Reaches optstring (('-' :: (cs ++ rest)) :: ws) c := by
  obtain ⟨c', hc', he⟩ := List.mem_map.mp hc
  obtain rfl : c' = c := congrArg Prod.fst he
  obtain ⟨front, back, rfl⟩ := List.append_of_mem hc'
  refine ⟨[], [], front, back ++ rest, ws, ?_, fun x hx => hcs x ?_⟩
  · rw [List.append_assoc, List.cons_append]
    exact .refl _
  · rw [List.mem_append, List.mem_singleton] at hx
    rw [List.mem_append, List.mem_cons]
    exact hx.imp_right Or.inl

theorem reaches_of_step {ws ws' : List (List Char)} {os : List Opt} {ps : List (List Char)}
    (h : Step optstring ws os ps ws') (hc : (c, none) ∈ os) : Reaches optstring ws c := by
  cases h with
  | operand => cases hc
  | flags _ _ hcs =>
    have hh := reaches_of_mem_flagOpts hcs hc [] ws'
    rwa [List.append_nil] at hh
  | attached _ hcs => exact reaches_of_mem_flagOpts hcs (by simpa using hc) _ _
  | separate _ _ hcs => exact reaches_of_mem_flagOpts hcs (by simpa using hc) _ _

theorem reaches_of_reads {ws ws' : List (List Char)} {os : List Opt} {ps : List (List Char)}
    (h : Reads optstring ws os ps ws') (hc : (c, none) ∈ os ∨ Reaches optstring ws' c) :
    Reaches optstring ws c := by
  induction h with
  | refl => exact hc.resolve_left List.not_mem_nil
  | @step ws _ _ os os' _ _ hstep _ ih =>
    by_cases hos : (c, none) ∈ os
    · exact reaches_of_step hstep hos
    · have hrest : (c, none) ∈ os' ∨ _ :=
        hc.imp_left fun h => (List.mem_append.mp h).resolve_left hos
      obtain ⟨os'', ps'', cs, rest, ws'', hreads, hcs⟩ := ih hrest
      exact ⟨_, _, cs, rest, ws'', .step hstep hreads, hcs⟩

variable (hdash : takesArgument optstring '-' = none)
include hdash

theorem mem_options_of_reaches {ws : List (List Char)} (h : Reaches optstring ws c) :
    (c, none) ∈ (scan optstring ⟨[], ws, []⟩).options := by
  obtain ⟨os, ps, cs, rest, ws', hreads, hcs⟩ := h
  have hword : '-' :: ((cs ++ [c]) ++ rest) ≠ ['-', '-'] := by
    have hc : takesArgument optstring c = some false := hcs c (by simp)
    have hfront : Flags optstring cs := fun x hx => hcs x (List.mem_append_left _ hx)
    rw [List.append_assoc]
    exact word_ne_dashes hdash hfront (by simp [hc])
  have hscan := scan_word hcs (by simp) hword ws' ([] ++ ps)
  rw [List.append_assoc, List.singleton_append] at hscan
  rw [scan_reads hdash hreads, hscan]
  simp [Scan.prepend, flagOpts]

theorem reaches_of_mem_options {ws : List (List Char)}
    (hc : (c, none) ∈ (scan optstring ⟨[], ws, []⟩).options) : Reaches optstring ws c := by
  obtain ⟨os, ps, ws', hreads, hend⟩ := exists_reads optstring ws
  refine reaches_of_reads hreads ?_
  rw [scan_reads hdash hreads] at hc
  refine (List.mem_append.mp hc).imp_right fun hc => ?_
  obtain rfl | ⟨rest, rfl⟩ | ⟨os', hstuck⟩ := hend
  · rw [scan_nil] at hc
    cases hc
  · rw [scan_dashes] at hc
    cases hc
  · rw [(scan_stuck hdash hstuck _).2] at hc
    cases hstuck with
    | invalid rest ws hcs => exact reaches_of_mem_flagOpts hcs hc _ _
    | missing hcs => exact reaches_of_mem_flagOpts hcs hc _ _

/-- An option without argument is returned exactly when a word with it is reached. -/
theorem mem_options_iff_reaches (ws : List (List Char)) :
    (c, none) ∈ (scan optstring ⟨[], ws, []⟩).options ↔ Reaches optstring ws c :=
  ⟨reaches_of_mem_options hdash, mem_options_of_reaches hdash⟩

end Reach

end DdsBenchmark.CLib
