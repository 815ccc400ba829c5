import DdsBenchmark.Cputime.Monitor
import DdsBenchmark.Stream.Visits

/-! The status text of the process. The lines of the two switch counters are recognised by
their names without the colon, so that the conversion starts at the colon and converts
nothing; only a longer key with digits behind the name would leave a number. The resident
size is recognised with its colon and is read. -/

namespace DdsBenchmark.Cputime

open CLib

/-- A number behind blanks. -/
structure Figure where
  blanks : List Char
  digits : List Char
  blanks_ok : ∀ c ∈ blanks, isspace c ∧ c ≠ '\n'
  digits_ne : digits ≠ []
  digits_ok : ∀ c ∈ digits, c.isDigit
  lt : decimal digits < 2 ^ 64

def Figure.text (f : Figure) : List Char := f.blanks ++ f.digits

theorem Figure.nul_not_mem_text (f : Figure) : Char.ofNat 0 ∉ f.text := by
  rw [Figure.text, List.mem_append, not_or]
  exact ⟨fun h => absurd (f.blanks_ok _ h).1 (by decide),
    fun h => absurd (f.digits_ok _ h) (by decide)⟩

def Figure.value (f : Figure) : UInt64 := UInt64.ofNat (decimal f.digits)

def voluntaryKey : List Char := "voluntary_ctxt_switches".toList

def nonvoluntaryKey : List Char := "nonvoluntary_ctxt_switches".toList

def rssKey : List Char := "VmRSS".toList

/-- A key and its value as a line without the newline. -/
def keyLine (l : List Char × List Char) : List Char := l.1 ++ ':' :: l.2

/-- A status text as its lines, each a key with its value. One line holds each of the three
figures that are looked for. -/
structure StatusText where
  lines : List (List Char × List Char)
  voluntary : Figure
  nonvoluntary : Figure
  rss : Figure
  key_ok : ∀ l ∈ lines, ':' ∉ l.1 ∧ '\n' ∉ l.1 ∧ Char.ofNat 0 ∉ l.1
  value_ok : ∀ l ∈ lines, '\n' ∉ l.2
  short : ∀ l ∈ lines, (keyLine l).length < 255
  one_voluntary : lines.filter (·.1 = voluntaryKey) = [(voluntaryKey, voluntary.text)]
  one_nonvoluntary :
    lines.filter (·.1 = nonvoluntaryKey) = [(nonvoluntaryKey, nonvoluntary.text)]
  one_rss : lines.filter (·.1 = rssKey) = [(rssKey, rss.text ++ " kB".toList)]

namespace StatusText
variable (s : StatusText)

def text : List Char := s.lines.flatMap fun l => keyLine l ++ ['\n']

def figures : StatusFigures := ⟨s.voluntary.value, s.nonvoluntary.value, s.rss.value⟩

end StatusText

/-- The number that stands in a key directly behind a name. -/
def strayNumber? (name key : List Char) : Option UInt64 :=
  if name.isPrefixOf key then sscanfLu (key.drop name.length) else none

/-- The last such number of a text, `0` if there is none. -/
def strayNumber (name : List Char) (lines : List (List Char × List Char)) : UInt64 :=
  ((lines.filterMap fun l => strayNumber? name l.1).getLast?).getD 0

section Line
variable {name key tail : List Char}

theorem prefix_keyLine_iff (hname : ':' ∉ name) : name <+: key ++ ':' :: tail ↔ name <+: key := by
  constructor
  · intro h
    obtain hle | ⟨r, rfl⟩ :=
      List.prefix_or_prefix_of_prefix h (List.prefix_append key (':' :: tail))
    · exact hle
    · have hr := (List.prefix_append_right_inj key).mp h
      cases r with
      | nil => exact (List.append_nil key).symm ▸ List.prefix_rfl
      | cons c r =>
        obtain rfl := (List.cons_prefix_cons.mp hr).1
        exact absurd (List.mem_append_right key List.mem_cons_self) hname
  · exact fun h => h.trans (List.prefix_append key _)

theorem colon_prefix_keyLine_iff (hname : ':' ∉ name) (hkey : ':' ∉ key) :
    name ++ [':'] <+: key ++ ':' :: tail ↔ key = name := by
  have htake : ∀ {xs ys : List Char}, ':' ∉ xs → (xs ++ ':' :: ys).takeWhile (· ≠ ':') = xs := by
    intro xs ys h
    rw [List.takeWhile_append_of_pos fun c hc => decide_eq_true (ne_of_mem_of_not_mem hc h)]
    simp
  constructor
  · rintro ⟨r, hr⟩
    rw [List.append_assoc, List.singleton_append] at hr
    rw [← htake hkey, ← hr, htake hname]
  · rintro rfl
    exact ⟨tail, by simp⟩

end Line

/-! ### One line -/

section StatusLine
variable {l : List Char × List Char}

/-- What the program sees of a line that `fgets` returns. -/
theorem cstr_keyLine (hnul : Char.ofNat 0 ∉ l.1) :
    cstr (keyLine l ++ ['\n']) = l.1 ++ ':' :: cstr (l.2 ++ ['\n']) := by
  rw [keyLine, List.append_assoc, cstr_append hnul]
  rfl

theorem strncmpEq_iff {a b name : List Char} {n : ℕ} (hb : b.take n = name)
    (hn : name.length = n) : strncmpEq a b n = true ↔ name <+: a := by
  rw [strncmpEq, hb, decide_eq_true_eq, List.prefix_iff_eq_take, hn]
  exact eq_comm

/-- A conversion that starts behind a name does not get past the colon. -/
theorem sscanfLu_drop {name key tail : List Char} {n : ℕ} (h : name <+: key)
    (hn : name.length = n) : sscanfLu ((key ++ ':' :: tail).drop n) = strayNumber? name key := by
  subst hn
  rw [List.drop_append_of_le_length h.length_le, sscanfLu_append_colon, strayNumber?,
    if_pos (List.isPrefixOf_iff_prefix.mpr h)]

/-- A line is a matter of its key: each counter takes a number that stands in the key behind
its name, the resident size the value behind its own name. -/
theorem statusLine_keyLine (figures : StatusFigures)
    (hkey : ':' ∉ l.1 ∧ '\n' ∉ l.1 ∧ Char.ofNat 0 ∉ l.1) :
    statusLine figures (keyLine l ++ ['\n']) =
      if voluntaryKey <+: l.1 then
        { figures with vcsw := (strayNumber? voluntaryKey l.1).getD figures.vcsw }
      else if nonvoluntaryKey <+: l.1 then
        { figures with ivcsw := (strayNumber? nonvoluntaryKey l.1).getD figures.ivcsw }
      else if l.1 = rssKey then
        { figures with rssKb := (sscanfLu (cstr (l.2 ++ ['\n']))).getD figures.rssKb }
      else figures := by
  have hv : voluntaryKey.length = 23 := by decide +kernel
  have hn : nonvoluntaryKey.length = 26 := by decide +kernel
  have h₁ : strncmpEq (l.1 ++ ':' :: cstr (l.2 ++ ['\n'])) "voluntary_ctxt_switches:".toList 23 =
      true ↔ voluntaryKey <+: l.1 :=
    (strncmpEq_iff (by decide +kernel) hv).trans (prefix_keyLine_iff (by decide +kernel))
  have h₂ : strncmpEq (l.1 ++ ':' :: cstr (l.2 ++ ['\n'])) "nonvoluntary_ctxt_switches:".toList 26 =
      true ↔ nonvoluntaryKey <+: l.1 :=
    (strncmpEq_iff (by decide +kernel) hn).trans (prefix_keyLine_iff (by decide +kernel))
  have hr : "VmRSS:".toList.take 6 = rssKey ++ [':'] := by decide +kernel
  have h₃ : strncmpEq (l.1 ++ ':' :: cstr (l.2 ++ ['\n'])) "VmRSS:".toList 6 = true ↔
      l.1 = rssKey :=
    (strncmpEq_iff hr (by decide +kernel)).trans
      (colon_prefix_keyLine_iff (by decide +kernel) hkey.1)
  rw [statusLine, cstr_keyLine hkey.2.2]
  simp only [h₁, h₂, h₃]
  split_ifs with hvol hnon hrss
  · rw [sscanfLu_drop hvol hv]
  · rw [sscanfLu_drop hnon hn]
  · rw [hrss]
    rfl
  · rfl

theorem strayNumber?_of_other {name key : List Char} (h : ¬ name <+: key) :
    strayNumber? name key = none :=
  if_neg fun hp => h (List.isPrefixOf_iff_prefix.mp hp)

theorem head?_of_startsWith {name key : List Char} {c : Char} (h : name <+: key)
    (hname : name.head? = some c) : key.head? = some c := by
  obtain ⟨r, rfl⟩ := h
  rw [List.head?_append, hname, Option.some_or]

/-- The three keys start with different letters. -/
theorem keys_exclusive {key : List Char} :
    (voluntaryKey <+: key → ¬ nonvoluntaryKey <+: key ∧ key ≠ rssKey) ∧
      (nonvoluntaryKey <+: key → key ≠ rssKey) := by
  have hv : voluntaryKey.head? = some 'v' := by decide +kernel
  have hn : nonvoluntaryKey.head? = some 'n' := by decide +kernel
  have hr : rssKey.head? = some 'V' := by decide +kernel
  refine ⟨fun h => ⟨fun h' => ?_, ?_⟩, fun h => ?_⟩
  · have hhead := (head?_of_startsWith h hv).symm.trans (head?_of_startsWith h' hn)
    exact absurd hhead (by decide)
  · rintro rfl
    exact absurd ((head?_of_startsWith h hv).symm.trans hr) (by decide)
  · rintro rfl
    exact absurd ((head?_of_startsWith h hn).symm.trans hr) (by decide)

variable (figures : StatusFigures) (hkey : ':' ∉ l.1 ∧ '\n' ∉ l.1 ∧ Char.ofNat 0 ∉ l.1)
include hkey

theorem vcsw_keyLine : (statusLine figures (keyLine l ++ ['\n'])).vcsw =
    (strayNumber? voluntaryKey l.1).getD figures.vcsw := by
  rw [statusLine_keyLine figures hkey]
  split_ifs with hv hn hr
  · rfl
  all_goals rw [strayNumber?_of_other hv]; rfl

theorem ivcsw_keyLine : (statusLine figures (keyLine l ++ ['\n'])).ivcsw =
    (strayNumber? nonvoluntaryKey l.1).getD figures.ivcsw := by
  rw [statusLine_keyLine figures hkey]
  split_ifs with hv hn hr
  · rw [strayNumber?_of_other (keys_exclusive.1 hv).1]
    rfl
  · rfl
  all_goals rw [strayNumber?_of_other hn]; rfl

theorem rssKb_keyLine : (statusLine figures (keyLine l ++ ['\n'])).rssKb =
    (if l.1 = rssKey then sscanfLu (cstr (l.2 ++ ['\n'])) else none).getD figures.rssKb := by
  rw [statusLine_keyLine figures hkey]
  split_ifs with hv hr hn hr hr
  · exact absurd hr (keys_exclusive.1 hv).2
  · rfl
  · exact absurd hr (keys_exclusive.2 hn)
  · rfl
  · rfl
  · rfl

end StatusLine

/-! ### The whole text -/

namespace StatusText
variable (s : StatusText)

theorem fgetsLines_text :
    fgetsLines 255 255 s.text = s.lines.map fun l => keyLine l ++ ['\n'] := by
  have hlines : ∀ lines : List (List Char × List Char),
      (∀ l ∈ lines, '\n' ∉ keyLine l ∧ (keyLine l).length < 255) →
      fgetsLines 255 255 (lines.flatMap fun l => keyLine l ++ ['\n']) =
        lines.map fun l => keyLine l ++ ['\n'] := by
    intro lines h
    induction lines with
    | nil => rfl
    | cons l lines ih =>
      obtain ⟨⟨hl, hshort⟩, h⟩ := List.forall_mem_cons.mp h
      rw [List.flatMap_cons, List.append_assoc, List.singleton_append,
        fgetsLines_line hl hshort, ih h, List.map_cons]
  refine hlines s.lines fun l hl => ⟨?_, s.short l hl⟩
  rw [keyLine, List.mem_append, List.mem_cons]
  have h₁ := (s.key_ok l hl).2.1
  have h₂ := s.value_ok l hl
  simp [h₁, h₂]

/-- The one line of the resident size is read. -/
theorem rss_line : (s.lines.filterMap fun l =>
    if l.1 = rssKey then sscanfLu (cstr (l.2 ++ ['\n'])) else none) = [s.rss.value] := by
  have hfilter : (s.lines.filterMap fun l =>
      if l.1 = rssKey then sscanfLu (cstr (l.2 ++ ['\n'])) else none) =
      (s.lines.filter (·.1 = rssKey)).filterMap fun l => sscanfLu (cstr (l.2 ++ ['\n'])) := by
    rw [List.filterMap_filter]
    simp only [decide_eq_true_eq]
  have hcstr : cstr (s.rss.text ++ " kB".toList ++ ['\n']) =
      s.rss.blanks ++ (s.rss.digits ++ [' ', 'k', 'B', '\n']) := by
    have hkb : " kB".toList ++ ['\n'] = [' ', 'k', 'B', '\n'] := by decide +kernel
    rw [List.append_assoc, cstr_append s.rss.nul_not_mem_text, hkb, Figure.text,
      List.append_assoc]
    rfl
  have hscan : sscanfLu (cstr (s.rss.text ++ " kB".toList ++ ['\n'])) = some s.rss.value := by
    rw [hcstr]
    refine sscanfLu_digits (fun c hc => (s.rss.blanks_ok c hc).1) s.rss.digits_ok
      s.rss.digits_ne s.rss.lt fun c hc => ?_
    obtain rfl := Option.some.inj hc
    decide
  rw [hfilter, s.one_rss, List.filterMap_cons, List.filterMap_nil, hscan]

/-- Each figure is the last value that some line gives it. -/
theorem readStatus_text (figures : StatusFigures) :
    readStatus (some s.text) figures =
      { vcsw := strayNumber voluntaryKey s.lines
        ivcsw := strayNumber nonvoluntaryKey s.lines
        rssKb := s.rss.value } := by
  obtain ⟨step, hstep⟩ : ∃ step : StatusFigures → List Char × List Char → StatusFigures,
      step = fun f l => statusLine f (keyLine l ++ ['\n']) := ⟨_, rfl⟩
  have hrun : readStatus (some s.text) figures = s.lines.foldl step ⟨0, 0, 0⟩ := by
    rw [readStatus, s.fgetsLines_text, List.foldl_map, hstep]
  have hv : (s.lines.foldl step ⟨0, 0, 0⟩).vcsw = strayNumber voluntaryKey s.lines :=
    Visits.foldl_eq_getLast step
      (fun f l hl => by rw [hstep]; exact vcsw_keyLine f (s.key_ok l hl)) _
  have hi : (s.lines.foldl step ⟨0, 0, 0⟩).ivcsw = strayNumber nonvoluntaryKey s.lines :=
    Visits.foldl_eq_getLast step
      (fun f l hl => by rw [hstep]; exact ivcsw_keyLine f (s.key_ok l hl)) _
  have hr : (s.lines.foldl step ⟨0, 0, 0⟩).rssKb = (List.getLast? (s.lines.filterMap fun l =>
      if l.1 = rssKey then sscanfLu (cstr (l.2 ++ ['\n'])) else none)).getD 0 :=
    Visits.foldl_eq_getLast step
      (fun f l hl => by rw [hstep]; exact rssKb_keyLine f (s.key_ok l hl)) _
  rw [s.rss_line] at hr
  calc readStatus (some s.text) figures
      = s.lines.foldl step ⟨0, 0, 0⟩ := hrun
    _ = ⟨(s.lines.foldl step ⟨0, 0, 0⟩).vcsw, (s.lines.foldl step ⟨0, 0, 0⟩).ivcsw,
          (s.lines.foldl step ⟨0, 0, 0⟩).rssKb⟩ := rfl
    _ = _ := by rw [hv, hi, hr]; rfl

end StatusText

/-- The text is read right exactly when the numbers of the two switch counters are those that
stand in other keys behind their names, which is `0` where there are none. -/
theorem readStatus_eq_iff (s : StatusText) (figures : StatusFigures) :
    readStatus (some s.text) figures = s.figures ↔
      strayNumber voluntaryKey s.lines = s.voluntary.value ∧
        strayNumber nonvoluntaryKey s.lines = s.nonvoluntary.value := by
  rw [s.readStatus_text, StatusText.figures, StatusFigures.mk.injEq]
  simp

/-- Where no key goes on with a number behind the two names, as none does that the kernel
writes, the switch counters are read as `0`. -/
theorem readStatus_of_no_stray (s : StatusText) (figures : StatusFigures)
    (h : ∀ l ∈ s.lines, strayNumber? voluntaryKey l.1 = none ∧
      strayNumber? nonvoluntaryKey l.1 = none) :
    readStatus (some s.text) figures = ⟨0, 0, s.rss.value⟩ := by
  have hv : s.lines.filterMap (fun l => strayNumber? voluntaryKey l.1) = [] :=
    List.filterMap_eq_nil_iff.mpr fun l hl => (h l hl).1
  have hn : s.lines.filterMap (fun l => strayNumber? nonvoluntaryKey l.1) = [] :=
    List.filterMap_eq_nil_iff.mpr fun l hl => (h l hl).2
  rw [s.readStatus_text, strayNumber, strayNumber, hv, hn]
  rfl

theorem blanks_of_all {blanks : List Char} (h : blanks.all fun c => isspace c && c != '\n') :
    ∀ c ∈ blanks, isspace c ∧ c ≠ '\n' := by
  simpa using h

/-- A process that gave up the processor five times and lost it once. -/
def busyStatus : StatusText where
  lines := [("Name".toList, "\tbcli".toList), (rssKey, "\t    2048 kB".toList),
    (voluntaryKey, "\t5".toList), (nonvoluntaryKey, "\t1".toList)]
  voluntary := ⟨['\t'], ['5'], blanks_of_all (by decide +kernel), by decide,
    List.all_eq_true.mp (by decide +kernel), by decide⟩
  nonvoluntary := ⟨['\t'], ['1'], blanks_of_all (by decide +kernel), by decide,
    List.all_eq_true.mp (by decide +kernel), by decide⟩
  rss := ⟨"\t    ".toList, "2048".toList, blanks_of_all (by decide +kernel), by decide +kernel,
    List.all_eq_true.mp (by decide +kernel), by decide +kernel⟩
  key_ok := by decide +kernel
  value_ok := by decide +kernel
  short := by decide +kernel
  one_voluntary := by decide +kernel
  one_nonvoluntary := by decide +kernel
  one_rss := by decide +kernel

/-- It is reported as never having done either. -/
theorem not_readStatus_eq :
    ¬ ∀ (s : StatusText) (figures : StatusFigures),
      readStatus (some s.text) figures = s.figures := by
  intro h
  exact absurd (h busyStatus ⟨0, 0, 0⟩) (by decide +kernel)

end DdsBenchmark.Cputime
