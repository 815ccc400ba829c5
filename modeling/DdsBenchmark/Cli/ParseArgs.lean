import DdsBenchmark.CLib.Getopt
import DdsBenchmark.CLib.Text
import DdsBenchmark.Publisher.Loop

/-! The command line. The command is the first argument; `getopt` then runs over the arguments
from the command on, which stands where it expects the name of the program. Its operands, the
rate and the size among them, are never looked at, and `atoi` takes every option argument. -/

namespace DdsBenchmark.Cli

open CLib Publisher

/-- The ends of `parse_args` other than `return true`. -/
inductive Stop where
  | returnFalse (opts : Options)
  | exit
  deriving DecidableEq

def optstring : List Char := "i:t:n:cbh".toList

/-- The first argument. -/
def handleCommand (opts : Options) (command : List Char) : Except Stop Options :=
  if command = "pub".toList then .ok { opts with cmd := .pub }
  else if command = "sub".toList then .ok { opts with cmd := .sub }
  else if command = "ping".toList then .ok { opts with cmd := .ping }
  else if command = "pong".toList then .ok { opts with cmd := .pong }
  else if command = "-h".toList ∨ command = "--help".toList then .error .exit
  else .error (.returnFalse opts)

/-- The body of the loop over the options. -/
def handleOption (opts : Options) : Opt → Except Stop Options
  | ('i', some optarg) => .ok { opts with domainId := atoi optarg }
  | ('t', some optarg) => .ok { opts with runTime := atoi optarg }
  | ('n', some optarg) => .ok { opts with keyCount := atoi optarg }
  | ('c', _) => .ok { opts with monitor := true }
  | ('b', _) => .ok { opts with bestEffort := true }
  | ('h', _) => .error .exit
  | _ => .error (.returnFalse opts)

/-- The loop; the character `?` goes to the default of its switch. -/
def optionLoop (opts : Options) (s : Getopt) : Except Stop Options :=
  match _h : getopt optstring s with
  | (.opt o, s') => do
    let opts ← handleOption opts o
    optionLoop opts s'
  | (.done, _) => .ok opts
  | (.invalid _, _) => .error (.returnFalse opts)
  | (.missing _, _) => .error (.returnFalse opts)
termination_by s.size
decreasing_by exact size_getopt_lt ‹_›

/-- `.ok` with the options is `return true`. -/
def parseArgs (argv : List (List Char)) (opts : Options) : Except Stop Options :=
  match argv with
  | _ :: command :: words => do
    let opts ← handleCommand opts command
    optionLoop opts ⟨[], words, []⟩
  | _ => .error (.returnFalse opts)

/-! ### The documented command line -/

/-- A decimal number that an `int` holds. -/
def number (w : List Char) : Option ℕ :=
  if w ≠ [] ∧ w.all Char.isDigit ∧ decimal w < 2 ^ 31 then some (decimal w) else none

/-- The bytes in a unit. -/
def unitBytes : List Char → Option ℕ
  | [] => some 1
  | ['B'] => some 1
  | ['k'] => some 1024
  | ['m'] => some (1024 * 1024)
  | _ => none

/-- A decimal number and an optional unit, in bytes, that a `size_t` holds. -/
def sizeBytes (w : List Char) : Option ℕ := do
  let factor ← unitBytes (w.dropWhile Char.isDigit)
  let digits := w.takeWhile Char.isDigit
  if digits ≠ [] ∧ decimal digits * factor < 2 ^ 64 then some (decimal digits * factor) else none

def commandOf (w : List Char) : Option Command :=
  if w = "pub".toList then some .pub
  else if w = "sub".toList then some .sub
  else if w = "ping".toList then some .ping
  else if w = "pong".toList then some .pong
  else none

/-- A command and its operands. -/
def denoteCommand : Command → List (List Char) → Option Options
  | .pub, [rate, size] => do
    some { cmd := .pub, rate := ← number rate, payloadSize := ← sizeBytes size }
  | .sub, [] => some { cmd := .sub }
  | .ping, [] => some { cmd := .ping }
  | .ping, [rate] => do some { cmd := .ping, rate := ← number rate }
  | .pong, [] => some { cmd := .pong }
  | _, _ => none

def denoteOption (opts : Options) : Opt → Option Options
  | ('i', some id) => (number id).map fun n => { opts with domainId := n }
  | ('t', some sec) => (number sec).map fun n => { opts with runTime := n }
  | ('n', some count) => (number count).map fun n => { opts with keyCount := n }
  | ('b', none) => some { opts with bestEffort := true }
  | ('c', none) => some { opts with monitor := true }
  | _ => none

/-- A line with a command, and words behind it that `getopt` can read. -/
def Readable (argv words : List (List Char)) (cmd : Command) (os : List Opt)
    (ps : List (List Char)) : Prop :=
  ∃ prog command, argv = prog :: command :: words ∧ commandOf command = some cmd ∧
    Parses optstring words os ps

/-- What an argument vector of the usage grammar denotes: the operands belong to the command,
and a later option overrides an earlier one. -/
def Denotes (argv : List (List Char)) (opts : Options) : Prop :=
  ∃ words cmd os ps base, Readable argv words cmd os ps ∧ denoteCommand cmd ps = some base ∧
    os.foldlM denoteOption base = some opts

/-- The help is asked for, as the command or as an option. -/
def HelpAsked (argv : List (List Char)) : Prop :=
  ∃ prog command words, argv = prog :: command :: words ∧
    (command = "-h".toList ∨ command = "--help".toList ∨
      commandOf command ≠ none ∧ Reaches optstring words 'h')

/-- The line is understood if it is legal, and refused if it is not. -/
def Meets (argv : List (List Char)) : Prop :=
  (∀ opts, Denotes argv opts → parseArgs argv {} = .ok opts) ∧
    ((¬ ∃ opts, Denotes argv opts) → ∃ opts, parseArgs argv {} = .error (.returnFalse opts))

/-- If the line is readable, then the arguments of its options are numbers, and its operands
are right for the command and say nothing but the defaults. -/
def DefaultOperands (argv : List (List Char)) : Prop :=
  ∀ words cmd os ps, Readable argv words cmd os ps →
    (∀ o ∈ os, ∀ w ∈ o.2, number w ≠ none) ∧ denoteCommand cmd ps = some { cmd := cmd }

/-! ### What the loop does -/

theorem takesArgument_dash : takesArgument optstring '-' = none := rfl

/-- The options that `getopt` can return. -/
def Listed (o : Opt) : Prop := takesArgument optstring o.1 = some o.2.isSome

theorem Listed.cases {o : Opt} (h : Listed o) :
    (∃ w, o = ('i', some w) ∨ o = ('t', some w) ∨ o = ('n', some w)) ∨
      o = ('c', none) ∨ o = ('b', none) ∨ o = ('h', none) := by
  obtain ⟨c, arg⟩ := o
  have hh : takesArgument optstring c = some arg.isSome := h
  obtain ⟨hmem, hcolon, -⟩ :=
    mem_of_takesArgument (show takesArgument optstring c ≠ none by rw [hh]; simp)
  have hc : (c = 'i' ∨ c = 't' ∨ c = 'n') ∨ c = 'c' ∨ c = 'b' ∨ c = 'h' := by
    have hlist : optstring = ['i', ':', 't', ':', 'n', ':', 'c', 'b', 'h'] := rfl
    simp only [hlist, List.mem_cons, List.not_mem_nil] at hmem
    tauto
  obtain hc | hc := hc
  · have harg : arg.isSome = true := by
      obtain rfl | rfl | rfl := hc <;> exact (Option.some.inj hh).symm
    obtain ⟨w, rfl⟩ := Option.isSome_iff_exists.mp harg
    exact .inl ⟨w, by simpa using hc⟩
  · have harg : arg.isSome = false := by
      obtain rfl | rfl | rfl := hc <;> exact (Option.some.inj hh).symm
    cases arg with
    | some w => cases harg
    | none => exact .inr (by simpa using hc)

/-- Every option but the help lets the loop go on, with the rate and the size unchanged. -/
theorem Listed.handleOption_eq_ok {o : Opt} (h : Listed o) (hhelp : o ≠ ('h', none))
    (opts : Options) : ∃ opts', handleOption opts o = .ok opts' ∧
      opts'.rate = opts.rate ∧ opts'.payloadSize = opts.payloadSize := by
  obtain ⟨w, rfl | rfl | rfl⟩ | rfl | rfl | rfl := h.cases
  case inr.inr.inr => exact absurd rfl hhelp
  all_goals exact ⟨_, rfl, rfl, rfl⟩

theorem atoi_of_number {w : List Char} {n : ℕ} (h : number w = some n) : atoi w = n := by
  unfold number at h
  split_ifs at h with hdigits
  obtain rfl := Option.some.inj h
  exact atoi_digits (List.all_eq_true.mp hdigits.2.1) hdigits.2.2

/-- What an option denotes is what the loop stores, provided that its argument is a number. -/
theorem Listed.denoteOption_eq_some_iff {o : Opt} (h : Listed o) (opts opts' : Options) :
    denoteOption opts o = some opts' ↔
      handleOption opts o = .ok opts' ∧ ∀ w ∈ o.2, number w ≠ none := by
  obtain ⟨w, ho⟩ | rfl | rfl | rfl := h.cases
  · cases hw : number w with
    | none => obtain rfl | rfl | rfl := ho <;> simp [denoteOption, hw]
    | some n =>
      obtain rfl | rfl | rfl := ho <;>
        simp [denoteOption, handleOption, hw, atoi_of_number hw]
  all_goals simp [denoteOption, handleOption]

theorem bind_eq_ok_iff {α β : Type} {x : Except Stop α} {f : α → Except Stop β} {b : β} :
    x >>= f = .ok b ↔ ∃ a, x = .ok a ∧ f a = .ok b := by
  cases x with
  | error e => exact ⟨fun h => (nomatch h), fun ⟨_, h, _⟩ => (nomatch h)⟩
  | ok a => exact ⟨fun h => ⟨a, rfl, h⟩, fun ⟨_, h, hf⟩ => Except.ok.inj h ▸ hf⟩

section Fold
variable {os : List Opt} (hlisted : ∀ o ∈ os, Listed o)
include hlisted

theorem foldlM_denoteOption_eq_some_iff (opts opts' : Options) :
    os.foldlM denoteOption opts = some opts' ↔
      os.foldlM handleOption opts = .ok opts' ∧ ∀ o ∈ os, ∀ w ∈ o.2, number w ≠ none := by
  induction os generalizing opts with
  | nil => simp [pure, Except.pure]
  | cons o os ih =>
    obtain ⟨ho, hos⟩ := List.forall_mem_cons.mp hlisted
    rw [List.foldlM_cons, List.foldlM_cons, Option.bind_eq_bind, Option.bind_eq_some_iff,
      bind_eq_ok_iff, List.forall_mem_cons]
    simp only [ho.denoteOption_eq_some_iff, ih hos]
    constructor
    · rintro ⟨mid, ⟨hmid, hw⟩, hrest, hws⟩
      exact ⟨⟨mid, hmid, hrest⟩, hw, hws⟩
    · rintro ⟨⟨mid, hmid, hrest⟩, hw, hws⟩
      exact ⟨mid, ⟨hmid, hw⟩, hrest, hws⟩

/-- Without a help option the loop runs through all options; the rate and the size stay. -/
theorem foldlM_handleOption (hhelp : ('h', none) ∉ os) (opts : Options) :
    ∃ opts', os.foldlM handleOption opts = .ok opts' ∧
      opts'.rate = opts.rate ∧ opts'.payloadSize = opts.payloadSize := by
  induction os generalizing opts with
  | nil => exact ⟨opts, rfl, rfl, rfl⟩
  | cons o os ih =>
    obtain ⟨ho, hos⟩ := List.forall_mem_cons.mp hlisted
    obtain ⟨hne, hmem⟩ := not_or.mp (mt List.mem_cons.mpr hhelp)
    obtain ⟨mid, hmid, hrate, hsize⟩ := ho.handleOption_eq_ok (Ne.symm hne) opts
    obtain ⟨opts', hrest, hrate', hsize'⟩ := ih hos hmem mid
    refine ⟨opts', ?_, hrate'.trans hrate, hsize'.trans hsize⟩
    rw [List.foldlM_cons, hmid]
    exact hrest

/-- A help option ends the program, whatever stands before it. -/
theorem foldlM_handleOption_help (hhelp : ('h', none) ∈ os) (opts : Options) :
    os.foldlM handleOption opts = .error .exit := by
  induction os generalizing opts with
  | nil => cases hhelp
  | cons o os ih =>
    obtain ⟨ho, hos⟩ := List.forall_mem_cons.mp hlisted
    rw [List.foldlM_cons]
    by_cases hne : o = ('h', none)
    · rw [hne]
      rfl
    · obtain ⟨mid, hmid, -⟩ := ho.handleOption_eq_ok hne opts
      rw [hmid]
      exact ih hos ((List.mem_cons.mp hhelp).resolve_left (Ne.symm hne)) mid

end Fold

/-- The loop takes the options as they come, and ends well if `getopt` reaches the end. -/
theorem optionLoop_eq (opts : Options) (s : Getopt) :
    optionLoop opts s = (scan optstring s).options.foldlM handleOption opts >>= fun opts =>
      if (scan optstring s).complete then .ok opts else .error (.returnFalse opts) := by
  fun_induction optionLoop opts s with
  | case1 opts s o s' h ih =>
    rw [scan_of_opt h]
    change _ = (o :: (scan optstring s').options).foldlM handleOption opts >>= _
    rw [List.foldlM_cons, bind_assoc]
    exact congrArg _ (funext ih)
  | case2 opts s s' h =>
    rw [scan_of_done h]
    rfl
  | case3 opts s c s' h =>
    rw [scan_of_invalid h]
    rfl
  | case4 opts s c s' h =>
    rw [scan_of_missing h]
    rfl

/-! ### The whole line -/

theorem handleCommand_of_some {command : List Char} {cmd : Command}
    (h : commandOf command = some cmd) (opts : Options) :
    handleCommand opts command = .ok { opts with cmd := cmd } := by
  unfold commandOf at h
  unfold handleCommand
  split_ifs at h ⊢ <;> cases h <;> rfl

theorem handleCommand_of_none {command : List Char} (h : commandOf command = none)
    (opts : Options) : handleCommand opts command =
      if command = "-h".toList ∨ command = "--help".toList then .error .exit
      else .error (.returnFalse opts) := by
  unfold commandOf at h
  unfold handleCommand
  split_ifs at h ⊢ <;> rfl

theorem commandOf_help {command : List Char}
    (h : command = "-h".toList ∨ command = "--help".toList) : commandOf command = none := by
  obtain rfl | rfl := h <;> rfl

section Line
variable {prog command : List Char} {words : List (List Char)} {cmd : Command}

theorem help_mem_iff : ('h', none) ∈ (scan optstring ⟨[], words, []⟩).options ↔
    Reaches optstring words 'h' :=
  mem_options_iff_reaches takesArgument_dash words

theorem helpAsked_iff : HelpAsked (prog :: command :: words) ↔
    command = "-h".toList ∨ command = "--help".toList ∨
      commandOf command ≠ none ∧ Reaches optstring words 'h' := by
  refine ⟨?_, fun h => ⟨_, _, _, rfl, h⟩⟩
  rintro ⟨_, _, _, he, h⟩
  cases he
  exact h

theorem parseArgs_of_some (hcmd : commandOf command = some cmd) (opts : Options) :
    parseArgs (prog :: command :: words) opts =
      optionLoop { opts with cmd := cmd } ⟨[], words, []⟩ := by
  rw [parseArgs, handleCommand_of_some hcmd]
  rfl

variable (prog) in
/-- Without a help option the line is taken exactly when `getopt` can read it; the rate and
the size are what they were before. -/
theorem parseArgs_of_not_reaches (hcmd : commandOf command = some cmd)
    (hhelp : ¬ Reaches optstring words 'h') (opts : Options) :
    ∃ opts', (scan optstring ⟨[], words, []⟩).options.foldlM handleOption
        { opts with cmd := cmd } = .ok opts' ∧
      opts'.rate = opts.rate ∧ opts'.payloadSize = opts.payloadSize ∧
      parseArgs (prog :: command :: words) opts =
        if (scan optstring ⟨[], words, []⟩).complete then .ok opts'
        else .error (.returnFalse opts') := by
  obtain ⟨opts', hfold, hrate, hsize⟩ := foldlM_handleOption
    (takesArgument_of_mem_options _) (mt help_mem_iff.mp hhelp) { opts with cmd := cmd }
  refine ⟨opts', hfold, hrate, hsize, ?_⟩
  rw [parseArgs_of_some hcmd, optionLoop_eq, hfold]
  rfl

end Line

/-- The program ends early exactly when it is asked for the help. -/
theorem parseArgs_eq_exit_iff (argv : List (List Char)) (opts : Options) :
    parseArgs argv opts = .error .exit ↔ HelpAsked argv := by
  match argv with
  | [] | [_] => exact ⟨fun h => (nomatch h), fun ⟨_, _, _, h, _⟩ => (nomatch h)⟩
  | prog :: command :: words =>
    rw [helpAsked_iff, ← or_assoc]
    cases hcmd : commandOf command with
    | none =>
      rw [parseArgs, handleCommand_of_none hcmd]
      split_ifs with hh
      · exact iff_of_true rfl (.inl hh)
      · exact iff_of_false (fun h => nomatch h) fun h => h.elim hh fun h => h.1 rfl
    | some cmd =>
      have hne := mt commandOf_help (by rw [hcmd]; exact Option.some_ne_none cmd)
      by_cases hhelp : Reaches optstring words 'h'
      · rw [parseArgs_of_some hcmd, optionLoop_eq,
          foldlM_handleOption_help (takesArgument_of_mem_options _) (help_mem_iff.mpr hhelp)]
        exact iff_of_true rfl (.inr ⟨Option.some_ne_none cmd, hhelp⟩)
      · obtain ⟨opts', -, -, -, hparse⟩ :=
          parseArgs_of_not_reaches prog hcmd hhelp opts
        rw [hparse]
        refine iff_of_false ?_ fun h => h.elim hne fun h => hhelp h.2
        split_ifs <;> exact fun h => nomatch h

section Readable
variable {argv words : List (List Char)} {cmd : Command} {os : List Opt} {ps : List (List Char)}

theorem Readable.scan_eq (h : Readable argv words cmd os ps) :
    scan optstring ⟨[], words, []⟩ = ⟨os, true, ps⟩ :=
  let ⟨_, _, _, _, hparses⟩ := h
  scan_of_parses takesArgument_dash hparses

theorem Readable.listed (h : Readable argv words cmd os ps) : ∀ o ∈ os, Listed o := by
  have hh : ∀ o ∈ (scan optstring ⟨[], words, []⟩).options, Listed o :=
    takesArgument_of_mem_options _
  rwa [h.scan_eq] at hh

/-- It is read in one way only. -/
theorem Readable.unique {words' ps' : List (List Char)} {cmd' : Command} {os' : List Opt}
    (h : Readable argv words cmd os ps) (h' : Readable argv words' cmd' os' ps') :
    cmd' = cmd ∧ os' = os ∧ ps' = ps := by
  have hscan := h.scan_eq
  have hscan' := h'.scan_eq
  obtain ⟨prog, command, rfl, hcmd, -⟩ := h
  obtain ⟨prog', command', he, hcmd', -⟩ := h'
  cases he
  cases hscan.symm.trans hscan'
  exact ⟨Option.some.inj (hcmd'.symm.trans hcmd), rfl, rfl⟩

/-- Every readable line is accepted, whatever its operands are. -/
theorem Readable.parseArgs_eq_ok (h : Readable argv words cmd os ps) (hhelp : ¬ HelpAsked argv) :
    ∃ opts, os.foldlM handleOption { cmd := cmd } = .ok opts ∧ opts.rate = 0 ∧
      opts.payloadSize = 256 ∧ parseArgs argv {} = .ok opts := by
  have hscan := h.scan_eq
  obtain ⟨prog, command, rfl, hcmd, -⟩ := h
  have hreaches : ¬ Reaches optstring words 'h' := fun hr =>
    hhelp (helpAsked_iff.mpr (.inr (.inr ⟨by simp [hcmd], hr⟩)))
  obtain ⟨opts, hfold, hrate, hsize, hparse⟩ :=
    parseArgs_of_not_reaches prog hcmd hreaches {}
  rw [hscan] at hfold hparse
  exact ⟨opts, hfold, hrate, hsize, hparse⟩

/-- A line that is not readable is refused. -/
theorem exists_returnFalse (hhelp : ¬ HelpAsked argv)
    (hread : ∀ words cmd os ps, ¬ Readable argv words cmd os ps) :
    ∃ opts, parseArgs argv {} = .error (.returnFalse opts) := by
  match argv with
  | [] | [_] => exact ⟨{}, rfl⟩
  | prog :: command :: words =>
    cases hcmd : commandOf command with
    | none =>
      have hne : ¬ (command = "-h".toList ∨ command = "--help".toList) := fun hh =>
        hhelp (helpAsked_iff.mpr (hh.imp_right .inl))
      rw [parseArgs, handleCommand_of_none hcmd, if_neg hne]
      exact ⟨_, rfl⟩
    | some cmd =>
      have hcomplete : ¬ (scan optstring ⟨[], words, []⟩).complete = true := by
        intro hc
        obtain ⟨os, ps, hparses⟩ := (complete_iff_exists_parses takesArgument_dash words).mp hc
        exact hread words cmd os ps ⟨prog, command, rfl, hcmd, hparses⟩
      have hreaches : ¬ Reaches optstring words 'h' := fun hr =>
        hhelp (helpAsked_iff.mpr (.inr (.inr ⟨by simp [hcmd], hr⟩)))
      obtain ⟨opts, -, -, -, hparse⟩ :=
        parseArgs_of_not_reaches prog hcmd hreaches {}
      rw [hparse, if_neg hcomplete]
      exact ⟨_, rfl⟩

/-- What a readable line denotes. -/
theorem Readable.denotes_iff (h : Readable argv words cmd os ps) (opts : Options) :
    Denotes argv opts ↔ ∃ base, denoteCommand cmd ps = some base ∧
      os.foldlM handleOption base = .ok opts ∧ ∀ o ∈ os, ∀ w ∈ o.2, number w ≠ none := by
  simp only [← foldlM_denoteOption_eq_some_iff h.listed]
  constructor
  · rintro ⟨words', cmd', os', ps', base, h', hbase, hfold⟩
    obtain ⟨rfl, rfl, rfl⟩ := h.unique h'
    exact ⟨base, hbase, hfold⟩
  · rintro ⟨base, hbase, hfold⟩
    exact ⟨words, cmd, os, ps, base, h, hbase, hfold⟩

theorem Readable.defaultOperands_iff (h : Readable argv words cmd os ps) :
    DefaultOperands argv ↔
      (∀ o ∈ os, ∀ w ∈ o.2, number w ≠ none) ∧ denoteCommand cmd ps = some { cmd := cmd } := by
  refine ⟨fun hh => hh words cmd os ps h, fun hh words' cmd' os' ps' h' => ?_⟩
  obtain ⟨rfl, rfl, rfl⟩ := h.unique h'
  exact hh

end Readable

/-- A command fixes everything but the rate and the size. -/
theorem eq_of_denoteCommand {cmd : Command} {ps : List (List Char)} {base : Options}
    (h : denoteCommand cmd ps = some base) (hrate : base.rate = 0)
    (hsize : base.payloadSize = 256) : base = { cmd := cmd } := by
  unfold denoteCommand at h
  split at h
  · simp only [Option.bind_eq_bind, Option.bind_eq_some_iff, Option.some.injEq] at h
    obtain ⟨rate, -, size, -, rfl⟩ := h
    cases hsize
    simp_all
  · exact (Option.some.inj h).symm
  · exact (Option.some.inj h).symm
  · simp only [Option.bind_eq_bind, Option.bind_eq_some_iff, Option.some.injEq] at h
    obtain ⟨rate, -, rfl⟩ := h
    simp_all
  · exact (Option.some.inj h).symm
  · cases h

section Readable
variable {argv words : List (List Char)} {cmd : Command} {os : List Opt} {ps : List (List Char)}

/-- A readable line is taken with the rate and the size of the defaults, so it must denote
these. -/
theorem Readable.defaults_of_meets (hread : Readable argv words cmd os ps)
    (hhelp : ¬ HelpAsked argv) (h : Meets argv) :
    (∀ o ∈ os, ∀ w ∈ o.2, number w ≠ none) ∧ denoteCommand cmd ps = some { cmd := cmd } := by
  obtain ⟨opts, hfold, hrate, hsize, hparse⟩ := hread.parseArgs_eq_ok hhelp
  obtain ⟨hok, hrefuse⟩ := h
  rw [hparse] at hok hrefuse
  obtain ⟨d, hd⟩ : ∃ d, Denotes argv d := by_contra fun hnone => nomatch hrefuse hnone
  obtain rfl := Except.ok.inj (hok d hd)
  obtain ⟨base, hbase, hfold', hnumbers⟩ := (hread.denotes_iff opts).mp hd
  have hnohelp : ('h', none) ∉ os := by
    intro hm
    rw [foldlM_handleOption_help hread.listed hm] at hfold
    cases hfold
  obtain ⟨opts', hfold'', hrate', hsize'⟩ := foldlM_handleOption hread.listed hnohelp base
  obtain rfl := Except.ok.inj (hfold'.symm.trans hfold'')
  rw [eq_of_denoteCommand hbase (hrate'.symm.trans hrate) (hsize'.symm.trans hsize)] at hbase
  exact ⟨hnumbers, hbase⟩

theorem Readable.meets_of_defaults (hread : Readable argv words cmd os ps)
    (hhelp : ¬ HelpAsked argv) (hnumbers : ∀ o ∈ os, ∀ w ∈ o.2, number w ≠ none)
    (hbase : denoteCommand cmd ps = some { cmd := cmd }) : Meets argv := by
  obtain ⟨opts, hfold, -, -, hparse⟩ := hread.parseArgs_eq_ok hhelp
  have hdenotes : Denotes argv opts :=
    (hread.denotes_iff opts).mpr ⟨_, hbase, hfold, hnumbers⟩
  refine ⟨fun d hd => ?_, fun hnone => absurd ⟨opts, hdenotes⟩ hnone⟩
  obtain ⟨base, hbase', hfold', -⟩ := (hread.denotes_iff d).mp hd
  obtain rfl := Option.some.inj (hbase.symm.trans hbase')
  rw [hparse]
  exact hfold.symm.trans hfold'

end Readable

/-- The rate and the size are never looked at, so a line is understood exactly when it cannot
be read, or has operands that repeat the defaults and no malformed option argument. -/
theorem meets_iff (argv : List (List Char)) (hhelp : ¬ HelpAsked argv) :
    Meets argv ↔ DefaultOperands argv := by
  by_cases hread : ∃ words cmd os ps, Readable argv words cmd os ps
  · obtain ⟨words, cmd, os, ps, hread⟩ := hread
    rw [hread.defaultOperands_iff]
    exact ⟨hread.defaults_of_meets hhelp, fun h => hread.meets_of_defaults hhelp h.1 h.2⟩
  · have hunread : ∀ words cmd os ps, ¬ Readable argv words cmd os ps :=
      fun words cmd os ps h => hread ⟨words, cmd, os, ps, h⟩
    refine iff_of_true ⟨?_, fun _ => exists_returnFalse hhelp hunread⟩ ?_
    · rintro d ⟨words, cmd, os, ps, base, h, -⟩
      exact absurd h (hunread words cmd os ps)
    · exact fun words cmd os ps h => absurd h (hunread words cmd os ps)

/-- `bcli pub -t 60 0 256B`: the operands are the defaults. -/
theorem meets_pub_default :
    Meets ["bcli".toList, "pub".toList, "-t".toList, "60".toList, "0".toList, "256B".toList] := by
  have hscan : scan optstring ⟨[], ["-t".toList, "60".toList, "0".toList, "256B".toList], []⟩ =
      ⟨[('t', some "60".toList)], true, ["0".toList, "256B".toList]⟩ := by
    rw [scan_of_opt rfl, scan_of_done rfl]
    rfl
  have hread : Readable _ _ .pub _ _ :=
    ⟨"bcli".toList, "pub".toList, rfl, rfl, (scan_eq_complete_iff takesArgument_dash).mp hscan⟩
  refine (meets_iff _ ?_).mpr (hread.defaultOperands_iff.mpr ⟨?_, ?_⟩)
  · rw [helpAsked_iff, ← help_mem_iff, hscan]
    decide +kernel
  · decide +kernel
  · decide +kernel

/-- `bcli pub 1000 256`, one of the documented examples: the rate stays `0`. -/
theorem not_meets : ¬ ∀ argv, ¬ HelpAsked argv → Meets argv := by
  intro h
  have hscan : scan optstring ⟨[], ["1000".toList, "256".toList], []⟩ =
      ⟨[], true, ["1000".toList, "256".toList]⟩ := by
    rw [scan_of_done rfl]
    rfl
  have hread : Readable ["bcli".toList, "pub".toList, "1000".toList, "256".toList] _ .pub _ _ :=
    ⟨"bcli".toList, "pub".toList, rfl, rfl, (scan_eq_complete_iff takesArgument_dash).mp hscan⟩
  have hhelp : ¬ HelpAsked ["bcli".toList, "pub".toList, "1000".toList, "256".toList] := by
    rw [helpAsked_iff, ← help_mem_iff, hscan]
    decide +kernel
  have hdenotes : Denotes ["bcli".toList, "pub".toList, "1000".toList, "256".toList]
      { cmd := .pub, rate := 1000, payloadSize := 256 } :=
    ⟨_, _, _, _, _, hread, by decide +kernel, rfl⟩
  obtain ⟨opts, -, hrate, -, hparse⟩ := hread.parseArgs_eq_ok hhelp
  cases Except.ok.inj (hparse.symm.trans ((h _ hhelp).1 _ hdenotes))
  cases hrate

end DdsBenchmark.Cli
