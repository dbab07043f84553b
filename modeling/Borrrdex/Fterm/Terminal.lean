import Borrrdex.Kstd.Strtok
import Mathlib.Tactic

/-!
# The terminal program

`fterm` gets what programs write byte by byte, in `print_char`.  A byte is either printed or is one
of an escape sequence: the parser's state is a flag, the type of the sequence and a buffer for its
parameters, all of them global.

A screen is a list of rows, and a row has as many cells as have been written so far.  What
`print_char` does with the rows by index is recorded (`Event`), with the size of the row at that
moment, and so is what it draws as a character and which control functions it performs.  The other
drawing is left out.  What happens behind an index that is not there is not defined; here nothing
does.

An `int` is an integer, cut to 32 bits where a parameter has been added to it (`int32`); the
language leaves that case undefined.  What comes from the C library is the parameter `Libc` or has
its documented meaning in the "C" locale.
-/

set_option autoImplicit false

namespace Borrrdex.Fterm

/-- What the C library's `atoi` makes of a string. -/
structure Libc where
  atoi : List Byte → BitVec 32

/-- `ESC_BUFFER_MAX`. -/
def escBufferMax : ℕ := 256

/-- `ANSI_ESC`. -/
def ansiEsc : Byte := 27

/-- `ANSI_CSI`, '['. -/
def ansiCsi : Byte := 0x5b

/-- `ANSI_OSC`, ']'. -/
def ansiOsc : Byte := 0x5d

/-- `isalpha`. -/
def isalpha (c : Byte) : Bool := (0x41 ≤ c && c ≤ 0x5a) || (0x61 ≤ c && c ≤ 0x7a)

/-- `isspace`. -/
def isspace (c : Byte) : Bool := c == 0x20 || (9 ≤ c && c ≤ 13)

/-- `isgraph`. -/
def isgraph (c : Byte) : Bool := 0x21 ≤ c && c ≤ 0x7e

/-- `strncat`, into a buffer. -/
def strncat (dest src : List Byte) (n : ℕ) : List Byte :=
  let s := cString dest ++ (cString src).take n
  s ++ 0 :: dest.drop (s.length + 1)

/-- `strnlen`. -/
def strnlen (s : List Byte) (n : ℕ) : ℕ := min (cString s).length n

/-- The value of an `int` that is computed. -/
def int32 (z : ℤ) : ℤ := (BitVec.ofInt 32 z).toInt

/-- `terminal_state`. -/
structure TerminalState where
  bold : Bool := false
  italic : Bool := false
  faint : Bool := false
  underline : Bool := false
  blink : Bool := false
  reverse : Bool := false
  strikethrough : Bool := false
  fgColor : Byte := 33
  bgColor : Byte := 0

/-- `terminal_char`. -/
structure TerminalChar where
  s : TerminalState := {}
  c : Byte := 0x20

/-- `w_size`. -/
structure WinSize where
  wsRow : BitVec 16
  wsCol : BitVec 16

/-- The globals. -/
structure Terminal where
  isEscapeSeq : Bool
  escapeType : Byte
  escBuffer : List Byte
  x : ℤ
  y : ℤ
  state : TerminalState
  screenBuffer : List (List TerminalChar)

/-- What is recorded: `screen_buffer[y][x]`, with the size of the row, `draw_char`, and
`do_ansi_csi` with its parameters. -/
inductive Event
  | index (y x : ℤ) (size : ℕ)
  | put (c : Byte) (x y : ℤ)
  | csi (ch : Byte) (params : List Byte)

/-- An access is inside the row. -/
def Event.Inside : Event → Prop
  | .index _ x size => 0 ≤ x ∧ x < size
  | .put .. => True
  | .csi .. => True

/-- What follows the first semicolon. -/
def afterSemicolon (s : List Byte) : Option (List Byte) := (s.dropWhile (· != 0x3b)).tail?

/-- `state.fg_color` or `state.bg_color` by a number. -/
def extended (libc : Libc) (s : List Byte) (color : Byte) : Byte :=
  match afterSemicolon s with
  | none => color
  | some rest =>
    if rest.headD 0 = 0x35 then
      match afterSemicolon rest with
      | none => color
      | some number => (libc.atoi number).setWidth 8
    else color

/-- `do_ansi_sgr`, with the number it looks at. -/
def sgr (libc : Libc) (s : List Byte) (r : ℤ) (st : TerminalState) : TerminalState :=
  if r < 30 then
    if r = 0 then {}
    else if r = 1 then { st with bold := true }
    else if r = 2 then { st with faint := true }
    else if r = 3 then { st with italic := true }
    else if r = 4 then { st with underline := true }
    else if r = 5 ∨ r = 6 then { st with blink := true }
    else if r = 7 then { st with reverse := true }
    else if r = 9 then { st with strikethrough := true }
    else if r = 21 then { st with underline := true }
    else if r = 24 then { st with underline := false }
    else if r = 25 then { st with blink := false }
    else if r = 27 then { st with reverse := false }
    else st
  else if 30 ≤ r ∧ r ≤ 37 then { st with fgColor := BitVec.ofInt 8 (r - 30) }
  else if 40 ≤ r ∧ r ≤ 47 then { st with bgColor := BitVec.ofInt 8 (r - 40) }
  else if 90 ≤ r ∧ r ≤ 97 then { st with fgColor := BitVec.ofInt 8 (r - 90 + 8) }
  else if 100 ≤ r ∧ r ≤ 107 then { st with bgColor := BitVec.ofInt 8 (r - 100 + 8) }
  else if r = 38 then { st with fgColor := extended libc s st.fgColor }
  else if r = 48 then { st with bgColor := extended libc s st.bgColor }
  else st

/-- `do_ansi_sgr`. -/
def doAnsiSgr (libc : Libc) (s : List Byte) (st : TerminalState) : TerminalState :=
  sgr libc s (libc.atoi (s.takeWhile (· != 0x3b))).toInt st

namespace Terminal

/-- The loop of `scroll`, with so many rounds. -/
def scrollLoop (w : WinSize) : ℕ → Terminal → Terminal
  | 0, t => t
  | rounds + 1, t =>
    if t.y ≥ w.wsRow.toNat then
      scrollLoop w rounds { t with screenBuffer := t.screenBuffer.tail ++ [[]], y := t.y - 1 }
    else t

/-- `scroll`. -/
def scroll (w : WinSize) (t : Terminal) : Terminal :=
  scrollLoop w (t.y + 1 - w.wsRow.toNat).toNat t

/-- `while(current_pos.x > w_size.ws_col)` of `ANSI_CSI_CUF`. -/
def forwardLoop (w : WinSize) : ℕ → Terminal → Terminal
  | 0, t => t
  | rounds + 1, t =>
    if t.x > w.wsCol.toNat then
      forwardLoop w rounds (scroll w { t with x := t.x - w.wsCol.toNat, y := t.y + 1 })
    else t

/-- `while(current_pos.x < 0)` of `ANSI_CSI_CUB`. -/
def backLoop (w : WinSize) : ℕ → Terminal → Terminal
  | 0, t => t
  | rounds + 1, t =>
    if t.x < 0 then backLoop w rounds { t with x := t.x + w.wsCol.toNat, y := t.y - 1 }
    else t

/-- `amount`. -/
def amount (libc : Libc) (t : Terminal) : ℤ :=
  if (cString t.escBuffer).length ≠ 0 then (libc.atoi (cString t.escBuffer)).toInt else 1

/-- `do_ansi_csi`: `ANSI_CSI_SGR`, `CUU`, `CUD`, `CUF` and `CUB`. -/
def doAnsiCsi (libc : Libc) (w : WinSize) (ch : Byte) (t : Terminal) : Terminal :=
  if ch = 0x6d then { t with state := doAnsiSgr libc (cString t.escBuffer) t.state }
  else if ch = 0x41 then { t with y := max (int32 (t.y - t.amount libc)) 0 }
  else if ch = 0x42 then scroll w { t with y := int32 (t.y + t.amount libc) }
  else if ch = 0x43 then
    let t := { t with x := int32 (t.x + t.amount libc) }
    forwardLoop w t.x.toNat t
  else if ch = 0x44 then
    let t := { t with x := int32 (t.x - t.amount libc) }
    let t := backLoop w (-t.x).toNat t
    if t.y < 0 then { t with x := 0, y := 0 } else t
  else t

/-- `screen_buffer[current_pos.y]`. -/
def row (t : Terminal) : List TerminalChar :=
  if 0 ≤ t.y then t.screenBuffer.getD t.y.toNat [] else []

/-- The row is changed, if it is there. -/
def setRow (t : Terminal) (r : List TerminalChar) : Terminal :=
  if 0 ≤ t.y then { t with screenBuffer := t.screenBuffer.set t.y.toNat r } else t

/-- `screen_buffer[current_pos.y][current_pos.x]`. -/
def access (t : Terminal) : Event := .index t.y t.x t.row.length

/-- The cell at the position is appended to the row or written over. -/
def writeCell (ch : Byte) (t : Terminal) : List Event × Terminal :=
  -- the position is an unsigned number in the comparison
  if t.x < 0 ∨ (t.row.length : ℤ) ≤ t.x then ([], t.setRow (t.row ++ [⟨t.state, ch⟩]))
  else ([t.access], t.setRow (t.row.set t.x.toNat ⟨t.state, ch⟩))

/-- `current_pos.x++`, and a new row if the last column was passed. -/
def advance (w : WinSize) (t : Terminal) : Terminal :=
  if int32 (t.x + 1) > w.wsCol.toNat then scroll w { t with x := 0, y := t.y + 1 }
  else { t with x := int32 (t.x + 1) }

/-- The `default` case of a byte that is not of a sequence. -/
def printGraphic (w : WinSize) (ch : Byte) (t : Terminal) : List Event × Terminal :=
  let written := t.writeCell ch
  (written.1 ++ [written.2.access, .put ch t.x t.y], written.2.advance w)

/-- `print_char`, of a byte that is not of a sequence. -/
def printGround (w : WinSize) (ch : Byte) (t : Terminal) : List Event × Terminal :=
  if ch = ansiEsc then
    ([], { t with isEscapeSeq := true, escapeType := 0, escBuffer := t.escBuffer.set 0 0 })
  else if ch = 0x0a then ([], scroll w { t with x := 0, y := t.y + 1 })
  else if ch = 8 then ([], if t.x > 0 then { t with x := t.x - 1 } else t)
  else if isgraph ch || isspace ch then printGraphic w ch t
  else ([], t)

/-- `print_char`, of a byte of a sequence, when the type is known. -/
def printParam (libc : Libc) (w : WinSize) (ch : Byte) (t : Terminal) : List Event × Terminal :=
  if t.escapeType = ansiCsi ∨ t.escapeType = ansiOsc then
    if isalpha ch = false then
      if strnlen t.escBuffer (escBufferMax - 1) = escBufferMax - 1 then
        ([], { t with isEscapeSeq := false })
      else ([], { t with escBuffer := strncat t.escBuffer [ch, 0] 2 })
    else if t.escapeType = ansiCsi then ([.csi ch (cString t.escBuffer)], doAnsiCsi libc w ch t)
    -- `do_ansi_osc` does nothing
    else ([], t)
  else ([], t)

/-- `print_char`, of a byte of a sequence. -/
def printEscape (libc : Libc) (w : WinSize) (ch : Byte) (t : Terminal) : List Event × Terminal :=
  if isspace ch then ([], t)
  else if t.escapeType = 0 then printParam libc w 0 { t with escapeType := ch }
  else printParam libc w ch t

/-- `print_char`. -/
def printChar (libc : Libc) (w : WinSize) (ch : Byte) (t : Terminal) : List Event × Terminal :=
  if t.isEscapeSeq then printEscape libc w ch t else printGround w ch t

/-- Byte after byte. -/
def printAll (libc : Libc) (w : WinSize) : List Byte → Terminal → List Event × Terminal
  | [], t => ([], t)
  | ch :: chs, t =>
    let one := printChar libc w ch t
    let rest := printAll libc w chs one.2
    (one.1 ++ rest.1, rest.2)

/-- The terminal when the program starts. -/
def start (w : WinSize) : Terminal where
  isEscapeSeq := false
  escapeType := 0
  escBuffer := List.replicate escBufferMax 0
  x := 0
  y := 0
  state := {}
  screenBuffer := List.replicate w.wsRow.toNat (List.replicate w.wsCol.toNat {})

end Terminal

end Borrrdex.Fterm
