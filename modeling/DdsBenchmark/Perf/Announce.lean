import DdsBenchmark.CLib.Scan
import Mathlib.Tactic.IntervalCases

/-! How the processes of the performance tool find each other. A process writes whether it has a
reader, its process id and its host into the user data of its participant, and the others read it
back from there. Pongs go to one participant only: they are written into a partition named after
its GUID, and different GUIDs give different names. -/

namespace DdsBenchmark.Perf

open CLib

/-- What one process reads of another in the user data of its participant. -/
structure Announcement where
  hasReader : Bool
  pid : UInt32
  hostname : List Char
  deriving DecidableEq

def udataMagic : List Char := "DDSPerf:".toList

/-- The user data of `main`; `hostname` is what `ddsrt_gethostname` puts behind the rest. -/
def announce (hasReader : Bool) (pid : ℕ) (hostname : List Char) : List Char :=
  udataMagic ++ (Nat.toDigits 10 hasReader.toNat ++ (':' :: (Nat.toDigits 10 pid ++
    (':' :: hostname))))

/-- The test on the user data in `async_participant_data_listener`, and what is stored of it. -/
def announcement (udata : List Char) : Option Announcement :=
  (scanText udataMagic (cstr udata)).bind fun s =>
  (scanInt s).bind fun hasReader =>
  (scanText [':'] hasReader.2).bind fun s =>
  (scanLong s).bind fun pid =>
  (scanText [':'] pid.2).bind fun hostname =>
    -- `strlen (udata + pos) == usz - pos`
    if (cstr udata).length = udata.length then
      some ⟨hasReader.1 ≠ 0, UInt32.ofInt pid.1, hostname⟩
    else none

theorem head_colon {s : List Char} : ∀ c ∈ (':' :: s).head?, c.isDigit = false := by
  intro c hc
  obtain rfl := Option.some.inj hc
  decide

theorem zero_notMem_toDigits (n : ℕ) : Char.ofNat 0 ∉ Nat.toDigits 10 n := fun h =>
  absurd (isDigit_of_mem_toDigits h) (by decide)

/-- `dds_guid_t`. -/
abbrev Guid := Vector UInt8 16

/-- `%02x`. -/
def hex2 (b : UInt8) : List Char := [(b.toNat / 16).digitChar, (b.toNat % 16).digitChar]

def hex8 (a b c d : UInt8) : List Char := hex2 a ++ hex2 b ++ hex2 c ++ hex2 d

def makeGuidstr (g : Guid) : List Char :=
  hex8 g[0] g[1] g[2] g[3] ++ ('_' :: (hex8 g[4] g[5] g[6] g[7] ++ ('_' ::
    (hex8 g[8] g[9] g[10] g[11] ++ ('_' :: hex8 g[12] g[13] g[14] g[15])))))

/-- With the null byte the text just fits into a `guidstr`. -/
theorem length_makeGuidstr (g : Guid) : (makeGuidstr g).length = 35 := rfl

theorem digitChar_inj : ∀ m < 16, ∀ n < 16, m.digitChar = n.digitChar → m = n := by decide

theorem hex2_inj {a b : UInt8} (h : hex2 a = hex2 b) : a = b := by
  simp only [hex2, List.cons.injEq, and_true] at h
  have ha := a.toNat_lt
  have hb := b.toNat_lt
  have hhigh := digitChar_inj _ (by omega) _ (by omega) h.1
  have hlow := digitChar_inj _ (by omega) _ (by omega) h.2
  exact UInt8.toNat.inj (by omega)

theorem hex8_inj {a b c d a' b' c' d' : UInt8} (h : hex8 a b c d = hex8 a' b' c' d') :
    a = a' ∧ b = b' ∧ c = c' ∧ d = d' := by
  obtain ⟨habc, hd⟩ := List.append_inj h rfl
  obtain ⟨hab, hc⟩ := List.append_inj habc rfl
  obtain ⟨ha, hb⟩ := List.append_inj hab rfl
  exact ⟨hex2_inj ha, hex2_inj hb, hex2_inj hc, hex2_inj hd⟩

/-- No two participants share a partition. -/
theorem makeGuidstr_injective : Function.Injective makeGuidstr := by
  intro g h hgh
  obtain ⟨h₀, hrest₀⟩ := List.append_inj hgh rfl
  obtain ⟨h₁, hrest₁⟩ := List.append_inj (List.cons.inj hrest₀).2 rfl
  obtain ⟨h₂, hrest₂⟩ := List.append_inj (List.cons.inj hrest₁).2 rfl
  obtain ⟨e₀, e₁, e₂, e₃⟩ := hex8_inj h₀
  obtain ⟨e₄, e₅, e₆, e₇⟩ := hex8_inj h₁
  obtain ⟨e₈, e₉, e₁₀, e₁₁⟩ := hex8_inj h₂
  obtain ⟨e₁₂, e₁₃, e₁₄, e₁₅⟩ := hex8_inj (List.cons.inj hrest₂).2
  refine Vector.ext fun i hi => ?_
  interval_cases i <;> assumption

end DdsBenchmark.Perf
