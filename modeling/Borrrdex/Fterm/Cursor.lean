import Borrrdex.Fterm.Terminal

/-!
# The cursor of the terminal

The position of the cursor is inside the window as long as each byte finds the terminal in a state
that suits it (`Fits`).  The control functions move the cursor by a number that is read from the
stream: only `ANSI_CSI_CUB` brings a cursor back that has left the window on any side.  A row may be
shorter than the window is wide, since `scroll` makes empty ones, and a byte that is printed behind
the end of its row is appended to the row, but looked up at the cursor.

`safeRun_iff` says that the cursor and the accesses to the rows are as they should be in a run just
if each byte of it fits.
-/

set_option autoImplicit false

namespace Borrrdex.Fterm.Terminal

variable {libc : Libc} {w : WinSize} {t : Terminal} {ch : Byte}

/-- **The cursor is inside the window**, which has as many rows as it should. -/
structure Good (w : WinSize) (t : Terminal) : Prop where
  y_nonneg : 0 ≤ t.y
  y_lt : t.y < w.wsRow.toNat
  x_nonneg : 0 ≤ t.x
  rows : t.screenBuffer.length = w.wsRow.toNat

/-- **A byte is processed safely**: the cursor is inside the window, and the rows are
accessed inside. -/
def Safe (libc : Libc) (w : WinSize) (ch : Byte) (t : Terminal) : Prop :=
  Good w (t.printChar libc w ch).2 ∧ ∀ event ∈ (t.printChar libc w ch).1, event.Inside

/-- The number does not move the cursor out of the window on the side that the function does not
look at. -/
def FitsCsi (libc : Libc) (w : WinSize) (ch : Byte) (t : Terminal) : Prop :=
  (ch = 0x41 → int32 (t.y - t.amount libc) < w.wsRow.toNat) ∧
    (ch = 0x42 → 0 ≤ int32 (t.y + t.amount libc)) ∧
    (ch = 0x43 → 0 ≤ int32 (t.x + t.amount libc))

/-- **The byte fits**: what is printed is printed over a cell of the row or behind the last one. -/
def Fits (libc : Libc) (w : WinSize) (ch : Byte) (t : Terminal) : Prop :=
  if t.isEscapeSeq then
    isspace ch = false → isalpha ch = true → t.escapeType = ansiCsi → FitsCsi libc w ch t
  else
    ch ≠ 0x0a → (isgraph ch || isspace ch) = true →
      t.x ≤ t.row.length ∧ 0 ≤ int32 (t.x + 1)

/-- Each byte is processed safely. -/
def SafeRun (libc : Libc) (w : WinSize) : List Byte → Terminal → Prop
  | [], _ => True
  | ch :: chs, t => Safe libc w ch t ∧ SafeRun libc w chs (t.printChar libc w ch).2

/-- Each byte fits. -/
def FitsRun (libc : Libc) (w : WinSize) : List Byte → Terminal → Prop
  | [], _ => True
  | ch :: chs, t => Fits libc w ch t ∧ FitsRun libc w chs (t.printChar libc w ch).2

/-! ## The loops -/

theorem length_scrollLoop (rounds : ℕ) (hrows : 0 < t.screenBuffer.length) :
    (scrollLoop w rounds t).screenBuffer.length = t.screenBuffer.length := by
  induction rounds generalizing t with
  | zero => rfl
  | succ rounds ih =>
    rw [scrollLoop]
    split
    · have hlen : (t.screenBuffer.tail ++ [[]]).length = t.screenBuffer.length := by
        rw [List.length_append, List.length_tail, List.length_singleton]
        omega
      rw [ih (by dsimp only; rw [hlen]; exact hrows)]
      exact hlen
    · rfl

theorem x_scrollLoop (rounds : ℕ) : (scrollLoop w rounds t).x = t.x := by
  induction rounds generalizing t with
  | zero => rfl
  | succ rounds ih =>
    rw [scrollLoop]
    split
    · exact ih
    · rfl

/-- The loop ends with the cursor in the last row, if it was below. -/
theorem y_scrollLoop (rounds : ℕ) (hrounds : t.y < w.wsRow.toNat + rounds) :
    (scrollLoop w rounds t).y = min t.y (w.wsRow.toNat - 1) := by
  induction rounds generalizing t with
  | zero =>
    rw [scrollLoop]
    omega
  | succ rounds ih =>
    rw [scrollLoop]
    split
    · rw [ih (by dsimp only; omega)]
      dsimp only
      omega
    · omega

theorem x_scroll (w : WinSize) (t : Terminal) : (scroll w t).x = t.x := x_scrollLoop _

theorem y_scroll (w : WinSize) (t : Terminal) :
    (scroll w t).y = min t.y (w.wsRow.toNat - 1) := y_scrollLoop _ (by omega)

/-- **`scroll` brings a cursor back from below.** -/
theorem good_scroll (hrow : 1 ≤ w.wsRow.toNat) (hy : 0 ≤ t.y) (hx : 0 ≤ t.x)
    (hrows : t.screenBuffer.length = w.wsRow.toNat) : Good w (scroll w t) where
  y_nonneg := by
    rw [y_scroll]
    omega
  y_lt := by
    rw [y_scroll]
    omega
  x_nonneg := by
    rw [x_scroll]
    exact hx
  rows := (length_scrollLoop _ (by omega)).trans hrows

theorem good_forwardLoop (hrow : 1 ≤ w.wsRow.toNat) (rounds : ℕ) (hgood : Good w t) :
    Good w (forwardLoop w rounds t) := by
  induction rounds generalizing t with
  | zero => exact hgood
  | succ rounds ih =>
    rw [forwardLoop]
    split
    · have hy := hgood.y_nonneg
      exact ih (good_scroll hrow (by dsimp only; omega) (by dsimp only; omega) hgood.rows)
    · exact hgood

theorem forwardLoop_of_le (rounds : ℕ) (hx : t.x ≤ w.wsCol.toNat) : forwardLoop w rounds t = t := by
  cases rounds with
  | zero => rfl
  | succ rounds => rw [forwardLoop, if_neg (by omega)]

/-- What the loop of `ANSI_CSI_CUB` changes. -/
theorem backLoop_spec (hcol : 1 ≤ w.wsCol.toNat) (rounds : ℕ) (hrounds : -t.x ≤ rounds) :
    0 ≤ (backLoop w rounds t).x ∧ (backLoop w rounds t).y ≤ t.y ∧
      (backLoop w rounds t).screenBuffer = t.screenBuffer := by
  induction rounds generalizing t with
  | zero =>
    rw [backLoop]
    exact ⟨by omega, le_rfl, rfl⟩
  | succ rounds ih =>
    rw [backLoop]
    split
    · obtain ⟨hx, hy, hbuf⟩ :=
        ih (t := { t with x := t.x + w.wsCol.toNat, y := t.y - 1 }) (by dsimp only; omega)
      exact ⟨hx, by dsimp only at hy; omega, hbuf⟩
    · exact ⟨by omega, le_rfl, rfl⟩

/-! ## The control functions -/

/-- **A control function leaves the cursor inside just if the number fits.** -/
theorem good_doAnsiCsi_iff (hrow : 1 ≤ w.wsRow.toNat) (hcol : 1 ≤ w.wsCol.toNat)
    (hgood : Good w t) :
    Good w (doAnsiCsi libc w ch t) ↔ FitsCsi libc w ch t := by
  have hy := hgood.y_nonneg
  have hlt := hgood.y_lt
  rw [doAnsiCsi, FitsCsi]
  split_ifs with hsgr hup hdown hforward hback
  · -- `ANSI_CSI_SGR`
    subst hsgr
    refine ⟨fun _ ↦ ⟨fun h ↦ ?_, fun h ↦ ?_, fun h ↦ ?_⟩, fun _ ↦ ?_⟩
    · exact absurd h (by decide)
    · exact absurd h (by decide)
    · exact absurd h (by decide)
    · exact ⟨hgood.y_nonneg, hgood.y_lt, hgood.x_nonneg, hgood.rows⟩
  · -- `ANSI_CSI_CUU`
    subst hup
    refine ⟨fun h ↦ ⟨fun _ ↦ ?_, fun h ↦ ?_, fun h ↦ ?_⟩, fun h ↦ ?_⟩
    · exact lt_of_le_of_lt (le_max_left _ _) h.y_lt
    · exact absurd h (by decide)
    · exact absurd h (by decide)
    · exact ⟨le_max_right _ _, max_lt (h.1 rfl) (by omega), hgood.x_nonneg, hgood.rows⟩
  · -- `ANSI_CSI_CUD`
    subst hdown
    refine ⟨fun h ↦ ⟨fun h ↦ ?_, fun _ ↦ ?_, fun h ↦ ?_⟩, fun h ↦ ?_⟩
    · exact absurd h (by decide)
    · have hnonneg := h.y_nonneg
      rw [y_scroll] at hnonneg
      exact le_trans hnonneg (min_le_left _ _)
    · exact absurd h (by decide)
    · exact good_scroll hrow (h.2.1 rfl) hgood.x_nonneg hgood.rows
  · -- `ANSI_CSI_CUF`
    subst hforward
    refine ⟨fun h ↦ ⟨fun h ↦ ?_, fun h ↦ ?_, fun _ ↦ ?_⟩, fun h ↦ ?_⟩
    · exact absurd h (by decide)
    · exact absurd h (by decide)
    · by_contra hneg
      rw [forwardLoop_of_le _ (by dsimp only; omega)] at h
      exact hneg h.x_nonneg
    · exact good_forwardLoop hrow _ ⟨hgood.y_nonneg, hgood.y_lt, h.2.2 rfl, hgood.rows⟩
  · -- `ANSI_CSI_CUB`, which is always repaired
    subst hback
    refine ⟨fun _ ↦ ⟨fun h ↦ ?_, fun h ↦ ?_, fun h ↦ ?_⟩, fun _ ↦ ?_⟩
    · exact absurd h (by decide)
    · exact absurd h (by decide)
    · exact absurd h (by decide)
    · obtain ⟨hx, hle, hbuf⟩ := backLoop_spec
        (t := { t with x := int32 (t.x - t.amount libc) }) hcol
        (-int32 (t.x - t.amount libc)).toNat (by dsimp only; omega)
      dsimp only at hle ⊢
      split_ifs with hneg
      · exact ⟨le_rfl, by dsimp only; omega, le_rfl, (congrArg List.length hbuf).trans hgood.rows⟩
      · exact ⟨by omega, by omega, hx, (congrArg List.length hbuf).trans hgood.rows⟩
  · refine ⟨fun _ ↦ ⟨fun h ↦ absurd h hup, fun h ↦ absurd h hdown, fun h ↦ absurd h hforward⟩,
      fun _ ↦ hgood⟩

/-! ## Printing -/

theorem length_screenBuffer_setRow (t : Terminal) (r : List TerminalChar) :
    (t.setRow r).screenBuffer.length = t.screenBuffer.length := by
  rw [setRow]
  split_ifs
  · exact List.length_set
  · rfl

theorem setRow_of_good (hgood : Good w t) (r : List TerminalChar) :
    t.setRow r = { t with screenBuffer := t.screenBuffer.set t.y.toNat r } :=
  if_pos hgood.y_nonneg

/-- A row that is there reads as it was set. -/
theorem row_setRow (hgood : Good w t) (r : List TerminalChar) : (t.setRow r).row = r := by
  have hlt : t.y.toNat < t.screenBuffer.length := by
    have hy := hgood.y_nonneg
    have hlt := hgood.y_lt
    rw [hgood.rows]
    omega
  rw [setRow_of_good hgood, row, if_pos hgood.y_nonneg]
  dsimp only
  rw [List.getD_eq_getElem?_getD, List.getElem?_set_self hlt]
  rfl

/-- **The cell that is looked up is there just if the row reaches to the cursor.** -/
theorem inside_printGraphic_iff (hgood : Good w t) :
    (∀ event ∈ (t.printGraphic w ch).1, event.Inside) ↔ t.x ≤ t.row.length := by
  have hx := hgood.x_nonneg
  rw [printGraphic, writeCell]
  split_ifs with hend
  · -- the cell is appended
    have hread : (t.setRow (t.row ++ [⟨t.state, ch⟩])).access =
        .index t.y t.x (t.row.length + 1) := by
      rw [access, row_setRow hgood, setRow_of_good hgood, List.length_append]
      rfl
    dsimp only
    rw [hread]
    simp [Event.Inside]
    omega
  · -- the cell is written over
    have hread : (t.setRow (t.row.set t.x.toNat ⟨t.state, ch⟩)).access =
        .index t.y t.x t.row.length := by
      rw [access, row_setRow hgood, setRow_of_good hgood, List.length_set]
    dsimp only
    rw [hread]
    simp [Event.Inside, access]
    omega

theorem writeCell_spec (ch : Byte) (hgood : Good w t) :
    (t.writeCell ch).2.x = t.x ∧ (t.writeCell ch).2.y = t.y ∧
      (t.writeCell ch).2.screenBuffer.length = t.screenBuffer.length := by
  rw [writeCell]
  split_ifs
  · exact ⟨by rw [setRow_of_good hgood], by rw [setRow_of_good hgood],
      length_screenBuffer_setRow t _⟩
  · exact ⟨by rw [setRow_of_good hgood], by rw [setRow_of_good hgood],
      length_screenBuffer_setRow t _⟩

/-- **The cursor is inside behind the byte** if the column is a number that an `int` holds. -/
theorem good_printGraphic_iff (hrow : 1 ≤ w.wsRow.toNat) (hgood : Good w t) :
    Good w (t.printGraphic w ch).2 ↔ 0 ≤ int32 (t.x + 1) := by
  obtain ⟨hx, hy, hlen⟩ := writeCell_spec ch hgood
  have hnonneg := hgood.y_nonneg
  have hlt := hgood.y_lt
  rw [printGraphic, advance]
  dsimp only
  rw [hx, hy]
  split_ifs with hlast
  · refine ⟨fun _ ↦ by omega, fun _ ↦ ?_⟩
    exact good_scroll hrow (by dsimp only; omega) le_rfl (hlen.trans hgood.rows)
  · refine ⟨fun h ↦ h.x_nonneg, fun h ↦ ?_⟩
    exact ⟨by dsimp only; omega, by dsimp only; omega, h, hlen.trans hgood.rows⟩

/-! ## A byte -/

/-- The parser may change. -/
theorem good_setParser (hgood : Good w t) (isEscapeSeq : Bool) (escapeType : Byte)
    (buf : List Byte) :
    Good w { t with isEscapeSeq := isEscapeSeq, escapeType := escapeType, escBuffer := buf } :=
  ⟨hgood.y_nonneg, hgood.y_lt, hgood.x_nonneg, hgood.rows⟩

/-- **A byte of a sequence.** -/
theorem good_printParam_iff (libc : Libc) (ch : Byte) (hrow : 1 ≤ w.wsRow.toNat)
    (hcol : 1 ≤ w.wsCol.toNat) (hgood : Good w t) :
    (Good w (t.printParam libc w ch).2 ∧ ∀ event ∈ (t.printParam libc w ch).1, event.Inside) ↔
      (isalpha ch = true → t.escapeType = ansiCsi → FitsCsi libc w ch t) := by
  rw [printParam]
  split_ifs with htype halpha hfull hcsi
  · exact ⟨fun _ h ↦ by simp [halpha] at h, fun _ ↦ ⟨good_setParser hgood .., by simp⟩⟩
  · exact ⟨fun _ h ↦ by simp [halpha] at h, fun _ ↦ ⟨good_setParser hgood .., by simp⟩⟩
  · have hletter : isalpha ch = true := by simpa using halpha
    have hinside : ∀ event ∈ [Event.csi ch (cString t.escBuffer)], event.Inside := by
      simp [Event.Inside]
    rw [and_iff_left hinside]
    exact (good_doAnsiCsi_iff hrow hcol hgood).trans ⟨fun h _ _ ↦ h, fun h ↦ h hletter hcsi⟩
  · exact ⟨fun _ _ h ↦ absurd h hcsi, fun _ ↦ ⟨hgood, by simp⟩⟩
  · exact ⟨fun _ _ h ↦ absurd (Or.inl h) htype, fun _ ↦ ⟨hgood, by simp⟩⟩

/-- **A byte that is not of a sequence.** -/
theorem good_printGround_iff (hrow : 1 ≤ w.wsRow.toNat) (hgood : Good w t) :
    (Good w (t.printGround w ch).2 ∧ ∀ event ∈ (t.printGround w ch).1, event.Inside) ↔
      (ch ≠ 0x0a → (isgraph ch || isspace ch) = true →
        t.x ≤ t.row.length ∧ 0 ≤ int32 (t.x + 1)) := by
  have hy := hgood.y_nonneg
  have hx := hgood.x_nonneg
  rw [printGround]
  by_cases hesc : ch = ansiEsc
  · subst hesc
    rw [if_pos rfl]
    exact ⟨fun _ _ h ↦ absurd h (by decide), fun _ ↦ ⟨good_setParser hgood .., by simp⟩⟩
  rw [if_neg hesc]
  by_cases hline : ch = 0x0a
  · rw [if_pos hline]
    refine ⟨fun _ h ↦ absurd hline h, fun _ ↦ ⟨?_, by simp⟩⟩
    exact good_scroll hrow (by dsimp only; omega) le_rfl hgood.rows
  rw [if_neg hline]
  by_cases hback : ch = 8
  · subst hback
    rw [if_pos rfl]
    refine ⟨fun _ _ h ↦ absurd h (by decide), fun _ ↦ ⟨?_, by simp⟩⟩
    split_ifs with hpos
    · exact ⟨hy, hgood.y_lt, by dsimp only; omega, hgood.rows⟩
    · exact hgood
  rw [if_neg hback]
  by_cases hprint : (isgraph ch || isspace ch) = true
  · rw [if_pos hprint, good_printGraphic_iff hrow hgood, inside_printGraphic_iff hgood, and_comm]
    exact ⟨fun h _ _ ↦ h, fun h ↦ h hline hprint⟩
  · rw [if_neg hprint]
    exact ⟨fun _ _ h ↦ absurd h hprint, fun _ ↦ ⟨hgood, by simp⟩⟩

/-- **A byte is processed safely just if it fits.** -/
theorem safe_iff (libc : Libc) (hrow : 1 ≤ w.wsRow.toNat) (hcol : 1 ≤ w.wsCol.toNat) (ch : Byte)
    (hgood : Good w t) : Safe libc w ch t ↔ Fits libc w ch t := by
  rw [Safe, Fits, printChar]
  split_ifs with hseq
  · rw [printEscape]
    split_ifs with hspace htype
    · exact ⟨fun _ h ↦ by simp [hspace] at h, fun _ ↦ ⟨hgood, by simp⟩⟩
    · -- the character of the type is not a letter of the sequence
      have hzero := good_printParam_iff libc 0 hrow hcol
        (good_setParser hgood t.isEscapeSeq ch t.escBuffer)
      refine ⟨fun _ _ _ h ↦ ?_, fun _ ↦ hzero.mpr fun h ↦ absurd h (by decide)⟩
      rw [htype] at h
      exact absurd h (by decide)
    · rw [good_printParam_iff libc ch hrow hcol hgood]
      exact ⟨fun h _ ↦ h, fun h ↦ h (by simpa using hspace)⟩
  · exact good_printGround_iff hrow hgood

/-! ## Runs -/

theorem good_start (hrow : 1 ≤ w.wsRow.toNat) : Good w (start w) :=
  ⟨le_rfl, by rw [start]; dsimp only; omega, le_rfl, List.length_replicate⟩

theorem safeRun_iff_of_good (libc : Libc) (hrow : 1 ≤ w.wsRow.toNat) (hcol : 1 ≤ w.wsCol.toNat)
    (chs : List Byte) (hgood : Good w t) : SafeRun libc w chs t ↔ FitsRun libc w chs t := by
  induction chs generalizing t with
  | nil => exact Iff.rfl
  | cons ch chs ih =>
    rw [SafeRun, FitsRun, ← safe_iff libc hrow hcol ch hgood]
    exact and_congr_right fun hsafe ↦ ih hsafe.1

/-- **A run is safe just if each byte of it fits.** -/
theorem safeRun_iff (libc : Libc) (w : WinSize) (hrow : 1 ≤ w.wsRow.toNat)
    (hcol : 1 ≤ w.wsCol.toNat) (chs : List Byte) :
    SafeRun libc w chs (start w) ↔ FitsRun libc w chs (start w) :=
  safeRun_iff_of_good libc hrow hcol chs (good_start hrow)

/-- Two letters on a terminal of one cell, and a new line. -/
theorem safeRun_iff_letters :
    1 ≤ (1 : BitVec 16).toNat ∧ SafeRun ⟨fun _ ↦ 0⟩ ⟨1, 1⟩ [0x61, 0x62, 0x0a] (start ⟨1, 1⟩) :=
  ⟨by decide, (safeRun_iff ⟨fun _ ↦ 0⟩ ⟨1, 1⟩ (by decide) (by decide) _).mpr
    ⟨fun _ _ ↦ by decide, fun _ _ ↦ by decide, fun h ↦ absurd rfl h, trivial⟩⟩

/-- `ESC [ - 5 C` moves the cursor out of the window. -/
theorem not_safeRun_forward :
    1 ≤ (⟨24, 80⟩ : WinSize).wsRow.toNat ∧ 1 ≤ (⟨24, 80⟩ : WinSize).wsCol.toNat ∧
      ¬ SafeRun ⟨fun _ ↦ -5⟩ ⟨24, 80⟩ [0x1b, 0x5b, 0x2d, 0x35, 0x43] (start ⟨24, 80⟩) := by
  refine ⟨by decide, by decide, ?_⟩
  rintro ⟨-, -, -, -, hlast, -⟩
  have hx := hlast.1.x_nonneg
  revert hx
  decide

end Borrrdex.Fterm.Terminal
