import Borrrdex.Kstd.Strtok
import Mathlib.Tactic

/-!
# The boot command line

`init_stivale2` goes through the command line with `strtok`, and uses one variable both for the
token that it looks at and for the string that it hands to the next call.  `strtok` only goes on
where it stopped if it is given a null pointer; given a token, it returns that token again, since
the token is a string with one word in it.

So the loop does not end if there is a word at all (`Scan.Stuck`), and `scans_iff` says that it does
what it should just if there is none.
-/

set_option autoImplicit false

namespace Borrrdex

open Components

/-- `strcmp`, of two buffers behind which there are NULs. -/
def strcmp : List Byte → List Byte → ℤ
  | [], [] => 0
  | [], b :: _ => if b = 0 then 0 else -1
  | a :: _, [] => if a = 0 then 0 else 1
  | a :: as, b :: bs =>
    if a = 0 ∧ b = 0 then 0
    else if a < b then -1
    else if a > b then 1
    else strcmp as bs

namespace Hal

/-- The variables of the scan: `cmd_line`, as an offset into the string that it was given, `saved`
of `strtok`, the string, and the two flags. -/
structure Scan where
  cmdLine : Option ℕ
  saved : Option ℕ
  buf : List Byte
  debugMode : Bool
  disableSmp : Bool

/-- `" "`. -/
def space : List Byte := [0x20]

/-- `"debug"`. -/
def debugWord : List Byte := [0x64, 0x65, 0x62, 0x75, 0x67]

/-- `"nosmp"`. -/
def nosmpWord : List Byte := [0x6e, 0x6f, 0x73, 0x6d, 0x70]

namespace Scan

/-- `cmd_line = strtok(cmd_line, " ")`. -/
def strtok (st : Scan) : Scan :=
  let r := strtokR st.cmdLine st.saved space st.buf
  { st with cmdLine := r.token, saved := r.saved, buf := r.buf }

/-- The body of the loop, up to the next call of `strtok`. -/
def look (st : Scan) (token : List Byte) : Scan :=
  if strcmp token debugWord = 0 then { st with debugMode := true }
  else if strcmp token nosmpWord = 0 then { st with disableSmp := true }
  else st

/-- `while(cmd_line)`, with so many tests. -/
def loop : ℕ → Scan → Option Scan
  | 0, _ => none
  | tests + 1, st =>
    match st.cmdLine with
    | none => some st
    | some token => loop tests (st.look (st.buf.drop token)).strtok

/-- The scan of a command line, at boot. -/
def run (tests : ℕ) (buf : List Byte) : Option Scan :=
  loop tests (strtok ⟨some 0, none, buf, false, false⟩)

end Scan

/-- The words of the command line in a buffer. -/
def words (buf : List Byte) : List (List Byte) := components (fun c ↦ c == 0x20) (cString buf)

/-- **What the scan should do**: end, with each flag set just if its word is there. -/
def Scans (buf : List Byte) : Prop :=
  ∃ tests st, Scan.run tests buf = some st ∧ (st.debugMode = true ↔ debugWord ∈ words buf) ∧
    (st.disableSmp = true ↔ nosmpWord ∈ words buf)

theorem isSome_strchr_space {c : Byte} (hc : c ≠ 0) : (strchr space c).isSome = (c == 0x20) := by
  have hstring : cString space = [0x20] := by decide
  rw [strchr, hstring, List.findIdx?_cons, List.findIdx?_nil]
  by_cases h : c = 0x20
  · rw [h]
    rfl
  · have hne : ((0x20 : Byte) == c) = false := beq_false_of_ne (Ne.symm h)
    rw [hne, beq_false_of_ne h]
    exact congrArg Option.isSome (if_neg hc)

theorem left_space (i : ℕ) (buf : List Byte) : left space (some i) buf = words (buf.drop i) :=
  components_congr fun _ hc ↦ isSome_strchr_space (by simpa using List.mem_takeWhile_imp hc)

/-- **There is a word left at the token**, and so there will always be one. -/
def Scan.Stuck (st : Scan) : Prop := ∃ token, st.cmdLine = some token ∧
    words (st.buf.drop token) ≠ []

/-- `strtok` finds the word again. -/
theorem Scan.Stuck.strtok {st : Scan} (h : st.Stuck) : st.strtok.Stuck := by
  obtain ⟨token, htoken, hne⟩ := h
  obtain ⟨c, cs, hwords⟩ := List.exists_cons_of_ne_nil hne
  have hleft : left space (st.cmdLine <|> st.saved) st.buf = c :: cs := by
    rw [htoken]
    exact (left_space token st.buf).trans hwords
  obtain ⟨t, m', buf', hcall, hc, -, -⟩ :=
    (strtokR_left st.cmdLine st.saved space st.buf).2 c cs hleft
  have hword : components (fun c ↦ c == 0x20) c = [c] :=
    components_of_mem (hwords ▸ List.mem_cons_self)
  refine ⟨t, ?_, ?_⟩
  · rw [Scan.strtok, hcall]
  · rw [Scan.strtok, hcall, words, hc, hword]
    exact List.cons_ne_nil _ _

theorem Scan.Stuck.look {st : Scan} (h : st.Stuck) (token : List Byte) : (st.look token).Stuck := by
  rw [Scan.look]
  split
  · exact h
  · split
    · exact h
    · exact h

/-- **It never ends.** -/
theorem Scan.Stuck.loop_eq_none {st : Scan} (h : st.Stuck) (tests : ℕ) : loop tests st = none := by
  induction tests generalizing st with
  | zero => rfl
  | succ tests ih =>
    obtain ⟨token, htoken, -⟩ := id h
    rw [loop, htoken]
    exact ih (h.look _).strtok

/-- **The command line is scanned right just if there is no word in it.** -/
theorem scans_iff (buf : List Byte) : Scans buf ↔ words buf = [] := by
  constructor
  · rintro ⟨tests, st, hrun, -, -⟩
    by_contra hne
    have hstuck : Scan.Stuck ⟨some 0, none, buf, false, false⟩ := ⟨0, rfl, by rwa [List.drop_zero]⟩
    rw [Scan.run, hstuck.strtok.loop_eq_none] at hrun
    cases hrun
  · intro hnil
    have hleft : left space (some 0 <|> none) buf = [] := (left_space 0 buf).trans hnil
    have hcall := (strtokR_left (some 0) none space buf).1 hleft
    refine ⟨1, ⟨none, none, buf, false, false⟩, ?_, ?_, ?_⟩
    · rw [Scan.run, Scan.strtok, hcall]
      rfl
    · rw [hnil]
      simp
    · rw [hnil]
      simp

/-- With "debug" alone the machine hangs. -/
theorem not_scans_debug : ¬ Scans debugWord := by
  rw [scans_iff]
  decide

end Hal

end Borrrdex
