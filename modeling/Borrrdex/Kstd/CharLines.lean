import Borrrdex.Kstd.CharBuffer
import Borrrdex.Lib.Runs

/-!
# The lines of a terminal's buffer

`_lines` is to be the number of terminators in the buffer, so that `has_lines` tells whether there
is a whole line.  `write` adds one for each that it puts in and `read` takes one off for each that
it takes out, but a backspace that erases one leaves the count as it is.

`Keeps` are the calls whose backspaces meet no terminators.  `counts_of_keeps` says that as long as
there are no others the count is right, and that it is wrong after the first.
-/

set_option autoImplicit false

namespace Borrrdex

namespace Editor

/-- A backspace that takes a terminator away. -/
def Erases (ignoreBs : Bool) (e : Editor) (ch : Byte) : Prop :=
  ch = backspace ∧ ignoreBs = false ∧ ∃ last ∈ e.line.getLast?, terminator last

instance (ignoreBs : Bool) (e : Editor) (ch : Byte) : Decidable (e.Erases ignoreBs ch) :=
  inferInstanceAs (Decidable (_ ∧ _ ∧ ∃ last ∈ e.line.getLast?, terminator last))

/-- How many of them there are. -/
def erased (ignoreBs : Bool) : Editor → List Byte → ℕ
  | _, [] => 0
  | e, ch :: chars =>
    (if e.Erases ignoreBs ch then 1 else 0) + erased ignoreBs (e.put ignoreBs ch) chars

/-- By how much the count of the lines is off. -/
def excess (e : Editor) : ℤ := e.lines - e.line.countP terminator

variable {ignoreBs : Bool}

theorem excess_put (e : Editor) (ch : Byte) :
    (e.put ignoreBs ch).excess = e.excess + if e.Erases ignoreBs ch then 1 else 0 := by
  by_cases hbs : ch = backspace ∧ ignoreBs = false
  · obtain ⟨rfl, rfl⟩ := hbs
    rcases List.eq_nil_or_concat e.line with hnil | ⟨line, last, hline⟩
    · have hnot : ¬ e.Erases false backspace := by simp [Erases, hnil]
      simp [put, hnil, hnot]
    · have herases : e.Erases false backspace ↔ terminator last := by simp [Erases, hline]
      by_cases hlast : terminator last <;> simp [put, excess, hline, herases, hlast]
      omega
  · have hnot : ¬ e.Erases ignoreBs ch := fun h ↦ hbs ⟨h.1, h.2.1⟩
    by_cases hch : terminator ch <;> simp [put, excess, hbs, hnot, hch]

/-- **A line that is edited counts too many terminators by those that have been erased.** -/
theorem excess_foldl (chars : List Byte) (e : Editor) :
    (chars.foldl (put ignoreBs) e).excess = e.excess + e.erased ignoreBs chars := by
  induction chars generalizing e with
  | nil => simp [erased]
  | cons ch chars ih =>
    rw [List.foldl_cons, ih, excess_put, erased]
    push_cast
    omega

end Editor

namespace CharBuffer

/-- What is done to the buffer of a terminal. -/
inductive LineCall where
  | write (b : ℕ → Byte) (n : U64)
  | read (b : ℕ → Byte) (n : U64)
  | flush
  | setIgnoreBackspace (ignoreBs : Bool)

def lineStep (c : CharBuffer) : LineCall → Option CharBuffer
  | .write b n => (c.write b n).map (·.buffer)
  | .read b n => (c.read b n).map (·.2.buffer)
  | .flush => some c.flush
  | .setIgnoreBackspace ignoreBs => some { c with ignoreBs := ignoreBs }

/-- A buffer that has been flushed. -/
def lineMachine : Machine CharBuffer LineCall where
  initial c := ∃ c' : CharBuffer, c = c'.flush
  step := lineStep

/-- The call stays within the initial capacity. -/
def Within (c : CharBuffer) : LineCall → Prop
  | .write _ n => c.position.toNat + n.toNat ≤ 1024
  | _ => True

/-- No backspace of the call comes when the last byte of the line is a terminator. -/
def Keeps (c : CharBuffer) : LineCall → Prop
  | .write b n => Editor.erased c.ignoreBs ⟨c.contents, c.lines, 0⟩ (prefixOf b n.toNat) = 0
  | _ => True

instance (c : CharBuffer) : ∀ call, Decidable (c.Within call)
  | .write _ n => inferInstanceAs (Decidable (c.position.toNat + n.toNat ≤ 1024))
  | .read _ _ => .isTrue trivial
  | .flush => .isTrue trivial
  | .setIgnoreBackspace _ => .isTrue trivial

instance (c : CharBuffer) : ∀ call, Decidable (c.Keeps call)
  | .write _ _ => inferInstanceAs (Decidable (Editor.erased _ _ _ = 0))
  | .read _ _ => .isTrue trivial
  | .flush => .isTrue trivial
  | .setIgnoreBackspace _ => .isTrue trivial

/-- `_lines` is what it is for. -/
def Counts (c : CharBuffer) : Prop := c.lines = c.contents.countP terminator

variable {c c' : CharBuffer}

theorem counts_iff_excess : c.Counts ↔ (⟨c.contents, c.lines, 0⟩ : Editor).excess = 0 := by
  rw [Counts, Editor.excess, sub_eq_zero]

theorem Counts.hasLines (h : c.Counts) :
    c.hasLines = true ↔ ∃ ch ∈ c.contents, terminator ch := by
  rw [CharBuffer.hasLines, h, decide_eq_true_eq, Nat.cast_pos, List.countP_pos_iff]

/-- What a write within the initial capacity does to the line. -/
theorem lineStep_write {b : ℕ → Byte} {n : U64} (h : c.Within (.write b n)) :
    ∃ c', c.lineStep (.write b n) = some c' ∧ c'.position.toNat ≤ c.position.toNat + n.toNat ∧
      (⟨c'.contents, c'.lines, 0⟩ : Editor).excess =
        (⟨c.contents, c.lines, 0⟩ : Editor).excess +
          Editor.erased c.ignoreBs ⟨c.contents, c.lines, 0⟩ (prefixOf b n.toNat) := by
  have hmax := toNat_maxSize
  rw [Within] at h
  have hclamp : c.clamp n = n := clamp_of_le (by omega)
  obtain ⟨s, hwrite, hedited⟩ := c.write_edits b n (by rw [hclamp]; omega) (by rw [hclamp]; omega)
  rw [hclamp] at hedited
  refine ⟨s.buffer, by rw [lineStep, hwrite]; rfl, hedited.position_le, ?_⟩
  rw [← Editor.excess_foldl, ← hedited.editor]
  rfl

/-- What a read does, as long as no more than the initial capacity waits. -/
theorem lineStep_read {b : ℕ → Byte} {n : U64} (h : c.position.toNat ≤ 1024) :
    ∃ c', c.lineStep (.read b n) = some c' ∧ c'.position.toNat ≤ c.position.toNat ∧
      (c'.Counts ↔ c.Counts) := by
  have havailable := toNat_available c n
  obtain ⟨s, hread, htaken⟩ := c.read_takes b n (by omega)
  have hcontents := htaken.contents (available_le c n) (.inr h)
  refine ⟨s.buffer, by rw [lineStep, hread]; rfl, ?_, ?_⟩
  · rw [htaken.position, BitVec.toNat_sub_of_le (available_le c n)]
    exact Nat.sub_le _ _
  · have hfirst : c.terminators (c.available n).toNat =
        (c.contents.take (c.available n).toNat).countP terminator := by
      rw [terminators, contents, take_prefixOf, min_eq_left (by omega)]
    have hsum := congrArg (List.countP terminator)
      (c.contents.take_append_drop (c.available n).toNat)
    rw [List.countP_append, ← hfirst, ← hcontents] at hsum
    rw [Counts, Counts, htaken.lines]
    omega

/-- A call within the initial capacity returns, leaves the buffer within it, and keeps a count that
is right just if no backspace meets a terminator. -/
theorem lineStep_counts (hpos : c.position.toNat ≤ 1024) (hcounts : c.Counts) {call : LineCall}
    (h : c.Within call) :
    ∃ c', c.lineStep call = some c' ∧ c'.position.toNat ≤ 1024 ∧ (c'.Counts ↔ c.Keeps call) := by
  cases call with
  | write b n =>
    obtain ⟨c', hstep, hle, hexcess⟩ := lineStep_write h
    refine ⟨c', hstep, hle.trans h, ?_⟩
    rw [counts_iff_excess, hexcess, counts_iff_excess.mp hcounts, Keeps, zero_add, Nat.cast_eq_zero]
  | read b n =>
    obtain ⟨c', hstep, hle, hiff⟩ := lineStep_read (b := b) (n := n) hpos
    exact ⟨c', hstep, hle.trans hpos, iff_of_true (hiff.mpr hcounts) trivial⟩
  | flush => exact ⟨c.flush, rfl, Nat.zero_le _, iff_of_true rfl trivial⟩
  | setIgnoreBackspace ignoreBs => exact ⟨_, rfl, hpos, iff_of_true hcounts trivial⟩

/-- The states of runs within the initial capacity in which no terminator is erased. -/
theorem counts_of_reaches
    (h : lineMachine.Reaches (fun c call ↦ c.Within call ∧ c.Keeps call) c) :
    c.position.toNat ≤ 1024 ∧ c.Counts := by
  refine @Machine.Reaches.invariant _ _ _ _ _ (fun c ↦ c.position.toNat ≤ 1024 ∧ c.Counts)
    (fun c hinit ↦ ?_) (fun c call c' ih hP hs ↦ ?_) h
  · obtain ⟨c', rfl⟩ := hinit
    exact ⟨Nat.zero_le _, rfl⟩
  · obtain ⟨c₁, hstep, hle, hiff⟩ := lineStep_counts ih.1 ih.2 hP.1
    obtain rfl : c₁ = c' := Option.some.inj (hstep.symm.trans hs)
    exact ⟨hle, hiff.mpr hP.2⟩

/-- **The lines are counted as long as no backspace erases a terminator**, and then `has_lines`
tells whether there is one; the first call in which a backspace does makes the count wrong. -/
theorem counts_of_keeps
    (h : lineMachine.Reaches (fun c call ↦ c.Within call ∧ c.Keeps call) c) :
    c.Counts ∧ (c.hasLines = true ↔ ∃ ch ∈ c.contents, terminator ch) ∧
      ∀ call, c.Within call → ∃ c', lineMachine.step c call = some c' ∧
        (c'.Counts ↔ c.Keeps call) := by
  obtain ⟨hpos, hcounts⟩ := counts_of_reaches h
  refine ⟨hcounts, hcounts.hasLines, fun call hwithin ↦ ?_⟩
  obtain ⟨c', hstep, -, hiff⟩ := lineStep_counts hpos hcounts hwithin
  exact ⟨c', hstep, hiff⟩

/-- A new terminal's. -/
def freshLine : CharBuffer := ⟨0, 0, false, fun _ ↦ nul, 1024⟩

/-- `"\n\b"`. -/
def lineTakenBack (i : ℕ) : Byte := if i = 0 then newline else backspace

/-- `"a\b\n"`. -/
def letterTakenBack (i : ℕ) : Byte := if i = 0 then 0x61 else if i = 1 then backspace else newline

theorem counts_of_keeps_letterTakenBack : ∃ c : CharBuffer,
    lineMachine.step freshLine (.write letterTakenBack 3) = some c ∧ c.lines = 1 ∧ c.Counts := by
  have hwithin : freshLine.Within (.write letterTakenBack 3) := by decide
  have hkeeps : freshLine.Keeps (.write letterTakenBack 3) := by decide
  have hinit : lineMachine.Reaches (fun c call ↦ c.Within call ∧ c.Keeps call) freshLine :=
    .initial ⟨freshLine, rfl⟩
  exact ⟨_, rfl, by decide, (counts_of_keeps (hinit.step ⟨hwithin, hkeeps⟩ rfl)).1⟩

/-- A line end that is taken back in the same write is still counted. -/
theorem not_counts_lineTakenBack :
    ¬ ∀ c, lineMachine.Reaches (fun c call ↦ c.Within call) c → c.Counts := by
  intro hall
  have hwithin : freshLine.Within (.write lineTakenBack 2) := by decide
  have hinit : lineMachine.Reaches (fun c call ↦ c.Within call) freshLine :=
    .initial ⟨freshLine, rfl⟩
  obtain ⟨c', hstep, -, hiff⟩ := lineStep_counts (by decide) (by rfl) hwithin
  have hkeeps := hiff.mp (hall c' (hinit.step hwithin hstep))
  exact absurd hkeeps (by decide)

end CharBuffer

end Borrrdex
