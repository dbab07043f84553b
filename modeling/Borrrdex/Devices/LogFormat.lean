import Borrrdex.Kstd.Itoa
import Mathlib.Data.List.GetD
import Mathlib.Logic.Relation

/-!
# The formats of the kernel's log

`write_f` goes through a format with two pointers and a few `goto`s: here it is a machine whose
`Mode` is the label it is at.  Characters are printed as they come, a directive takes one of the
arguments, and a null ends it only where a character would be printed.

What a format should say is a list of `Piece`s, and `encode` spells it.  `writeF_render` says that
what is printed is what the pieces say; `writeF_ends`, for whatever is in a format, that
`write_f` comes to its end at the null if no directive is left open there, and goes past it if one
is.
-/

set_option autoImplicit false

namespace Borrrdex
namespace Log

/-- A character of the source. -/
def chr (c : Char) : Byte := BitVec.ofNat 8 c.toNat

/-! ## The code -/

/-- Left adjustment. -/
def LADJUST : U32 := 0x0004
/-- A `long`. -/
def LONGINT : U32 := 0x0010
/-- A `long long`. -/
def LLONGINT : U32 := 0x0020
/-- A `short`, which makes no difference. -/
def SHORTINT : U32 := 0x0040
/-- Zeros and not blanks. -/
def ZEROPAD : U32 := 0x0080
/-- A `size_t`, which makes no difference. -/
def SIZEINT : U32 := 0x0400
/-- A `char`, which makes no difference. -/
def CHARINT : U32 := 0x0800

/-- `flags & bit`. -/
def has (flags bit : U32) : Bool := flags &&& bit != 0

/-- `PADCHAR`. -/
def padChar (flags : U32) : Byte := if has flags ZEROPAD then chr '0' else chr ' '

/-- The characters of `i < width - n`, where both are `int`s. -/
def padding (flags width : U32) (n : ℕ) : List Byte :=
  List.replicate (width.toInt - n).toNat (padChar flags)

/-- `print_n`, of a string without nulls and shorter than an `int` can say. -/
def printN (flags width : U32) (str : List Byte) : List Byte :=
  (if has flags LADJUST then [] else padding flags width str.length) ++ str ++
    (if has flags LADJUST then padding flags width str.length else [])

/-- `remainder > 9 ? (remainder - 10 + hexStart) : remainder + '0'`. -/
def integerChar (hexStart remainder : Byte) : Byte :=
  if remainder > 9 then remainder - 10 + hexStart else remainder + chr '0'

/-- The loop of `print_integer`, with room for so many characters in front of those there are.
It must not need more. -/
def integerLoop (base : ℕ) (hexStart : Byte) : ℕ → U64 → List Byte → Option (List Byte)
  | 0, arg, str => if arg > 0 then none else some str
  | room + 1, arg, str =>
    if arg > 0 then
      let remainder := (arg % BitVec.ofNat 64 base).setWidth 8
      integerLoop base hexStart room (arg / BitVec.ofNat 64 base)
        (integerChar hexStart remainder :: str)
    else some str

/-- `print_integer`, with its buffer of 23 characters. -/
def printInteger (flags width : U32) (arg : U64) (base : ℕ) (hexStart : Byte) :
    Option (List Byte) :=
  let str := if arg = 0 then integerLoop base hexStart 22 arg [chr '0']
    else integerLoop base hexStart 23 arg []
  str.map (printN flags width)

/-- `signed_arg`, of what is in the next place for an argument. -/
def signedArg (flags : U32) (slot : U64) : U64 :=
  if has flags LLONGINT then slot
  else if has flags LONGINT then slot
  else (slot.setWidth 32).signExtend 64

/-- `unsigned_arg`. -/
def unsignedArg (flags : U32) (slot : U64) : U64 :=
  if has flags LLONGINT then slot
  else if has flags LONGINT then slot
  else (slot.setWidth 32).setWidth 64

/-- The loop of `add_digit`.  A number of 32 bits has ten digits. -/
def addDigitLoop : ℕ → U32 → U32 → U32 × U32
  | 0, total, multiplier => (total, multiplier)
  | rounds + 1, total, multiplier =>
    if total > 9 then addDigitLoop rounds (total / 10) (multiplier + 10) else (total, multiplier)

/-- `add_digit`. -/
def addDigit (total : U32) (digit : Byte) : U32 :=
  let p := addDigitLoop 10 total 10
  p.1 * p.2 + digit.setWidth 32

/-- `strnlen`. -/
def strnlen (m : ByteMem) (str : ℕ) : ℕ → ℕ
  | 0 => 0
  | maxlen + 1 => if m str = 0 then 0 else strnlen m (str + 1) maxlen + 1

/-- Where `write_f` is. -/
inductive Mode
  /-- In the loop that prints. -/
  | text
  /-- At `rflag`. -/
  | rflag (flags width : U32)
  /-- At `reswitch`. -/
  | reswitch (flags width : U32) (ch : Byte)
  /-- At the `do`, in a run of digits. -/
  | digits (flags width : U32) (ch : Byte)
  /-- At the end. -/
  | done

/-- The state of `write_f`. -/
structure WriteF where
  /-- The next character of the format. -/
  fmt : ℕ
  /-- How many arguments have been taken. -/
  ap : ℕ
  /-- The label. -/
  mode : Mode
  /-- What has been printed. -/
  out : List Byte

variable (m : ByteMem) (slot : ℕ → U64)

/-- What is printed for a directive that takes an argument; the others print nothing. -/
def convert (flags width : U32) (ch : Byte) (arg : U64) : Option (List Byte) :=
  if ch = chr 'D' ∨ ch = chr 'd' ∨ ch = chr 'i' then
    let flags := if ch = chr 'D' then flags ||| LONGINT else flags
    let n := signedArg flags arg
    if n.toInt < 0 then (printInteger flags width (-n) 10 (chr 'A')).map (chr '-' :: ·)
    else printInteger flags width n 10 (chr 'A')
  else if ch = chr 'O' ∨ ch = chr 'o' then
    let flags := if ch = chr 'O' then flags ||| LONGINT else flags
    printInteger flags width (unsignedArg flags arg) 8 (chr 'A')
  else if ch = chr 's' then
    if arg = 0 then some (printN flags width ("(null)".toList.map chr))
    else some (printN flags width (bytesAt m arg.toNat (strnlen m arg.toNat (2 ^ 64 - 1))))
  else if ch = chr 'U' ∨ ch = chr 'u' then
    let flags := if ch = chr 'U' then flags ||| LONGINT else flags
    printInteger flags width (unsignedArg flags arg) 10 (chr 'A')
  else if ch = chr 'X' then printInteger flags width (unsignedArg flags arg) 16 (chr 'A')
  else if ch = chr 'x' then printInteger flags width (unsignedArg flags arg) 16 (chr 'a')
  else some []

/-- The directives that take an argument. -/
def takesArg (ch : Byte) : Bool := ("DdiOosUuXx".toList.map chr).any (· = ch)

/-- The `switch`. -/
def switch (s : WriteF) (flags width : U32) (ch : Byte) : Option WriteF :=
  if ch = chr '-' then some { s with mode := .rflag (flags ||| LADJUST) width }
  else if ch = chr '0' ∧ has flags ZEROPAD = false then
    some { s with mode := .rflag (flags ||| ZEROPAD) width }
  else if chr '0' ≤ ch ∧ ch ≤ chr '9' then some { s with mode := .digits flags width ch }
  else if ch = chr 'h' then
    if m s.fmt = chr 'h' then
      some { s with fmt := s.fmt + 1, mode := .rflag (flags ||| CHARINT) width }
    else some { s with mode := .rflag (flags ||| SHORTINT) width }
  else if ch = chr 'l' then
    if m s.fmt = chr 'l' then
      some { s with fmt := s.fmt + 1, mode := .rflag (flags ||| LLONGINT) width }
    else some { s with mode := .rflag (flags ||| LONGINT) width }
  else if ch = chr 'q' then some { s with mode := .rflag (flags ||| LLONGINT) width }
  else if ch = chr 'z' then some { s with mode := .rflag (flags ||| SIZEINT) width }
  else if takesArg ch then
    (convert m flags width ch (slot s.ap)).map fun str ↦
      { s with ap := s.ap + 1, mode := .text, out := s.out ++ str }
  else if ch = chr '%' then some { s with mode := .text, out := s.out ++ [chr '%'] }
  else some { s with mode := .text }

/-- `write_f` up to the next label.  Nothing comes of it if `print_integer` leaves its buffer. -/
def step (s : WriteF) : Option WriteF :=
  match s.mode with
  | .text =>
    let ch := m s.fmt
    if ch ≠ 0 ∧ ch ≠ chr '%' then some { s with fmt := s.fmt + 1, out := s.out ++ [ch] }
    else if ch = 0 then some { s with mode := .done }
    else some { s with fmt := s.fmt + 1, mode := .rflag 0 0 }
  | .rflag flags width =>
    some { s with fmt := s.fmt + 1, mode := .reswitch flags width (m s.fmt) }
  | .reswitch flags width ch => switch m slot s flags width ch
  | .digits flags width ch =>
    let width := addDigit width (ch - chr '0')
    let ch := m s.fmt
    let s := { s with fmt := s.fmt + 1 }
    -- the `while` of the source, which asks for a character below `'0'` and above `'9'`
    if ch ≤ chr '0' ∧ ch ≥ chr '9' then some { s with mode := .digits flags width ch }
    else some { s with mode := .reswitch flags width ch }
  | .done => none

/-- `write_f`, for so many labels. -/
def writeF : ℕ → WriteF → Option WriteF
  | 0, _ => none
  | labels + 1, s =>
    match s.mode with
    | .done => some s
    | _ => (step m slot s).bind (writeF labels)

/-- Where `write_f` begins. -/
def WriteF.start (fmt : ℕ) : WriteF := ⟨fmt, 0, .text, []⟩

/-! ## Numbers -/

variable {m slot} {base n p ap : ℕ} {w : List Byte} {flags width : U32} {c ch : Byte} {arg : U64}

/-- A letter of the other case, where it is a digit. -/
def upper (c : Byte) : Byte := if chr 'a' ≤ c ∧ c ≤ chr 'f' then c - chr 'a' + chr 'A' else c

theorem integerChar_lower {d : ℕ} (h : d < 16) :
    integerChar (chr 'a') (BitVec.ofNat 8 d) = digitChar d := by
  revert d
  decide

theorem integerChar_upper {d : ℕ} (h : d < 16) :
    integerChar (chr 'A') (BitVec.ofNat 8 d) = upper (digitChar d) := by
  revert d
  decide

theorem digitValue_upper : ∀ c : Byte, ∀ d < 16, digitValue c = some d →
    digitValue (upper c) = some d ∧ (upper c = 0x30 ↔ c = 0x30) := by
  decide +kernel

/-- The same number, in the other case. -/
theorem represents_upper (hbase : base ≤ 16) (h : Represents base n w) :
    Represents base n (w.map upper) := by
  have hdigit : ∀ c ∈ w, ∃ d < base, digitValue c = some d ∧ digitValue (upper c) = some d ∧
      (upper c = 0x30 ↔ c = 0x30) := fun c hc ↦ by
    obtain ⟨d, hd, hvalue⟩ := h.digits c hc
    exact ⟨d, hd, hvalue, digitValue_upper c d (by omega) hvalue⟩
  refine ⟨fun c hc ↦ ?_, ?_, fun hn ↦ ?_, fun hn ↦ ?_, ?_⟩
  · obtain ⟨c', hc', rfl⟩ := List.mem_map.mp hc
    obtain ⟨d, hd, -, hvalue, -⟩ := hdigit c' hc'
    exact ⟨d, hd, hvalue⟩
  · exact fun hnil ↦ h.nonempty (List.map_eq_nil_iff.mp hnil)
  · intro hhead
    rw [List.head?_map, Option.map_eq_some_iff] at hhead
    obtain ⟨c, hc, hzero⟩ := hhead
    obtain ⟨-, -, -, -, hiff⟩ := hdigit c (List.mem_of_mem_head? hc)
    exact h.canonical hn (by rw [hc, hiff.mp hzero])
  · rw [h.zero hn]
    rfl
  · rw [← h.value, value, value, List.foldl_map]
    refine List.foldl_ext _ _ _ fun v c hc ↦ ?_
    obtain ⟨d, -, hvalue, hvalue', -⟩ := hdigit c hc
    rw [hvalue, hvalue']

/-- The number as `print_integer` writes it. -/
def figures (hexStart : Byte) (base n : ℕ) : List Byte :=
  if hexStart = chr 'A' then (numeral base n).map upper else numeral base n

theorem represents_figures (hexStart : Byte) (hbase : 2 ≤ base) (hle : base ≤ 16) (n : ℕ) :
    Represents base n (figures hexStart base n) := by
  have hrep := represents_numeral hbase (by omega) n
  rw [figures]
  split_ifs
  · exact represents_upper hle hrep
  · exact hrep

theorem integerLoop_eq {hexStart : Byte} (hbase : 2 ≤ base) (hle : base ≤ 16) {room : ℕ}
    (hroom : (Nat.digits base arg.toNat).length ≤ room) (str : List Byte) :
    integerLoop base hexStart room arg str =
      some (((Nat.digits base arg.toNat).map fun d ↦
        integerChar hexStart (BitVec.ofNat 8 d)).reverse ++ str) := by
  have hzero : ¬ arg > 0 → Nat.digits base arg.toNat = [] := fun h ↦ by
    have hnum : arg.toNat = 0 := Nat.eq_zero_of_not_pos h
    rw [hnum, Nat.digits_zero]
  induction room generalizing arg str with
  | zero =>
    have hnil := List.length_eq_zero_iff.mp (Nat.le_zero.mp hroom)
    have hnum := Nat.digits_eq_nil_iff_eq_zero.mp hnil
    rw [integerLoop, if_neg fun h ↦ by
      have hpos : 0 < arg.toNat := h
      omega, hnil]
    rfl
  | succ room ih =>
    rw [integerLoop]
    by_cases harg : arg > 0
    · have hpos : 0 < arg.toNat := harg
      have hb : (BitVec.ofNat 64 base).toNat = base := by
        rw [BitVec.toNat_ofNat, Nat.mod_eq_of_lt (by omega)]
      have hdiv : (arg / BitVec.ofNat 64 base).toNat = arg.toNat / base := by
        rw [BitVec.toNat_udiv, hb]
      have hrem : (arg % BitVec.ofNat 64 base).setWidth 8 =
          BitVec.ofNat 8 (arg.toNat % base) := by
        refine BitVec.eq_of_toNat_eq ?_
        rw [BitVec.toNat_setWidth, BitVec.toNat_umod, hb, BitVec.toNat_ofNat]
      have hdigits : Nat.digits base arg.toNat =
          arg.toNat % base :: Nat.digits base (arg.toNat / base) :=
        Nat.digits_def' (by omega) hpos
      rw [hdigits, List.length_cons] at hroom
      rw [if_pos harg, ih (by rw [hdiv]; omega) _ fun h ↦ by
        rw [Nat.eq_zero_of_not_pos h, Nat.digits_zero], hdiv, hrem, hdigits, List.map_cons,
        List.reverse_cons, List.append_assoc]
      rfl
    · rw [if_neg harg, hzero harg]
      rfl

/-- **`print_integer`** stays in its buffer, and prints the number. -/
theorem printInteger_eq {hexStart : Byte} (hhex : hexStart = chr 'A' ∨ hexStart = chr 'a')
    (hbase : 8 ≤ base) (hle : base ≤ 16) (flags width : U32) (arg : U64) :
    printInteger flags width arg base hexStart =
      some (printN flags width (figures hexStart base arg.toNat)) := by
  have hlen : (Nat.digits base arg.toNat).length ≤ 22 := by
    refine (Nat.digits_length_le_iff (by omega) arg.toNat).mpr (arg.isLt.trans_le ?_)
    calc 2 ^ 64 ≤ 8 ^ 22 := by decide
      _ ≤ base ^ 22 := Nat.pow_le_pow_left hbase 22
  have hfigures : ∀ n, n ≠ 0 → ((Nat.digits base n).map fun d ↦
      integerChar hexStart (BitVec.ofNat 8 d)).reverse = figures hexStart base n := fun n hn ↦ by
    have hlt : ∀ d ∈ Nat.digits base n, d < 16 := fun d hd ↦
      (Nat.digits_lt_base (by omega) hd).trans_le hle
    rw [figures, numeral, if_neg hn, digitChars]
    rcases hhex with rfl | rfl
    · rw [if_pos rfl, ← List.map_reverse, ← List.map_reverse, List.map_map]
      exact List.map_congr_left fun d hd ↦ integerChar_upper (hlt d (List.mem_reverse.mp hd))
    · rw [if_neg (by decide), ← List.map_reverse, ← List.map_reverse]
      exact List.map_congr_left fun d hd ↦ integerChar_lower (hlt d (List.mem_reverse.mp hd))
  rw [printInteger]
  by_cases harg : arg = 0
  · subst harg
    have hzero : figures hexStart base (0 : U64).toNat = [chr '0'] := by
      rw [figures]
      split_ifs <;> rfl
    rw [if_pos rfl, hzero]
    rfl
  · rw [if_neg harg, integerLoop_eq (by omega) hle (by omega), List.append_nil,
      hfigures _ fun h ↦ harg (BitVec.toNat_eq.mpr h)]
    rfl

/-! ## Flags -/

theorem has_or (f g b : U32) : has (f ||| g) b = (has f b || has g b) := by
  have hor : (f ||| g) &&& b = (f &&& b) ||| (g &&& b) := BitVec.and_or_distrib_right
  rw [has, has, has, hor, Bool.eq_iff_iff]
  simp only [bne_iff_ne, ne_eq, Bool.or_eq_true]
  exact (not_congr BitVec.or_eq_zero_iff).trans not_and_or

/-! ## What a format says -/

/-- What may stand in front of the letter. -/
inductive Size
  | none
  | h
  | hh
  | l
  | ll
  | q
  | z

/-- How it is spelt. -/
def Size.encode : Size → List Byte
  | .none => []
  | .h => [chr 'h']
  | .hh => [chr 'h', chr 'h']
  | .l => [chr 'l']
  | .ll => [chr 'l', chr 'l']
  | .q => [chr 'q']
  | .z => [chr 'z']

/-- The flag that is set. -/
def Size.flag : Size → U32
  | .none => 0
  | .h => SHORTINT
  | .hh => CHARINT
  | .l => LONGINT
  | .ll => LLONGINT
  | .q => LLONGINT
  | .z => SIZEINT

/-- All 64 bits of the argument are printed. -/
def Size.wide : Size → Bool
  | .l => true
  | .ll => true
  | .q => true
  | _ => false

/-- The letter of a directive. -/
inductive Kind
  | D
  | d
  | i
  | O
  | o
  | s
  | U
  | u
  | X
  | x
  | percent

def Kind.char : Kind → Byte
  | .D => chr 'D'
  | .d => chr 'd'
  | .i => chr 'i'
  | .O => chr 'O'
  | .o => chr 'o'
  | .s => chr 's'
  | .U => chr 'U'
  | .u => chr 'u'
  | .X => chr 'X'
  | .x => chr 'x'
  | .percent => chr '%'

/-- A directive. -/
structure Directive where
  left : Bool
  zero : Bool
  width : ℕ
  size : Size
  kind : Kind

namespace Directive

/-- The widths that are understood.  A third digit is not counted as one, and without zeros to pad
with, the first zero in the width asks for them. -/
def Ok (d : Directive) : Prop := d.width < 100 ∧ (d.zero ∨ d.width % 10 ≠ 0 ∨ d.width = 0)

/-- A width, in at most two digits. -/
def widthDigits (width : ℕ) : List Byte :=
  if width = 0 then []
  else if width < 10 then [digitChar width]
  else [digitChar (width / 10), digitChar (width % 10)]

/-- How it is spelt. -/
def encode (d : Directive) : List Byte :=
  chr '%' :: ((if d.left then [chr '-'] else []) ++ ((if d.zero then [chr '0'] else []) ++
    (widthDigits d.width ++ (d.size.encode ++ [d.kind.char]))))

/-- As wide as it should be. -/
def pad (d : Directive) (w : List Byte) : List Byte :=
  let fill := List.replicate (d.width - w.length) (if d.zero then chr '0' else chr ' ')
  if d.left then w ++ fill else fill ++ w

/-- A signed argument.  The sign is in front of the padding. -/
def signed (d : Directive) (v : ℤ) : List Byte :=
  (if v < 0 then [chr '-'] else []) ++ d.pad (numeral 10 v.natAbs)

/-- The number that an argument is. -/
def unsignedValue (d : Directive) (wide : Bool) (v : U64) : ℕ :=
  if wide || d.size.wide then v.toNat else v.toNat % 2 ^ 32

def signedValue (d : Directive) (wide : Bool) (v : U64) : ℤ :=
  if wide || d.size.wide then v.toInt else (v.setWidth 32).toInt

/-- What is printed for an argument.  A string is what is at the address. -/
def render (text : U64 → List Byte) (d : Directive) (v : U64) : List Byte :=
  match d.kind with
  | .D => d.signed (d.signedValue true v)
  | .d => d.signed (d.signedValue false v)
  | .i => d.signed (d.signedValue false v)
  | .O => d.pad (numeral 8 (d.unsignedValue true v))
  | .o => d.pad (numeral 8 (d.unsignedValue false v))
  | .s => d.pad (if v = 0 then "(null)".toList.map chr else text v)
  | .U => d.pad (numeral 10 (d.unsignedValue true v))
  | .u => d.pad (numeral 10 (d.unsignedValue false v))
  | .X => d.pad ((numeral 16 (d.unsignedValue false v)).map upper)
  | .x => d.pad (numeral 16 (d.unsignedValue false v))
  | .percent => [chr '%']

/-- How many arguments it takes. -/
def takes (d : Directive) : ℕ := match d.kind with | .percent => 0 | _ => 1

end Directive

/-- A piece of a format. -/
inductive Piece
  | text (c : Byte)
  | directive (d : Directive)

def Piece.Ok : Piece → Prop
  | .text c => c ≠ 0 ∧ c ≠ chr '%'
  | .directive d => d.Ok

/-- The format of some pieces. -/
def encode : List Piece → List Byte
  | [] => []
  | .text c :: ps => c :: encode ps
  | .directive d :: ps => d.encode ++ encode ps

/-- **What they say**, with the arguments from the `ap`-th on. -/
def render (text : U64 → List Byte) (slot : ℕ → U64) : ℕ → List Piece → List Byte
  | _, [] => []
  | ap, .text c :: ps => c :: render text slot ap ps
  | ap, .directive d :: ps =>
    d.render text (slot ap) ++ render text slot (ap + d.takes) ps

/-- How many arguments they take. -/
def takes : List Piece → ℕ
  | [] => 0
  | .text _ :: ps => takes ps
  | .directive d :: ps => d.takes + takes ps

/-! ## From label to label -/

/-- The memory has these characters at an address. -/
def Spells (m : ByteMem) : ℕ → List Byte → Prop
  | _, [] => True
  | p, c :: w => m p = c ∧ Spells m (p + 1) w

theorem spells_append {u v : List Byte} :
    Spells m p (u ++ v) ↔ Spells m p u ∧ Spells m (p + u.length) v := by
  induction u generalizing p with
  | nil => exact (true_and _).symm.to_iff
  | cons c u ih =>
    rw [List.cons_append, Spells, Spells, ih, List.length_cons, and_assoc, Nat.add_right_comm,
      Nat.add_assoc]

theorem spells_of_stringAt (h : StringAt m p w) : Spells m p w := by
  have hall : ∀ v, ∀ q, (∀ i (hi : i < v.length), m (q + i) = v[i]) → Spells m q v := by
    intro v
    induction v with
    | nil => exact fun _ _ ↦ trivial
    | cons c v ih =>
      intro q hq
      refine ⟨hq 0 (Nat.zero_lt_succ _), ih (q + 1) fun i hi ↦ ?_⟩
      rw [Nat.add_right_comm, Nat.add_assoc]
      exact hq (i + 1) (Nat.succ_lt_succ hi)
  exact hall w p h.char

/-- From label to label, any number of times. -/
def Reaches (m : ByteMem) (slot : ℕ → U64) : WriteF → WriteF → Prop :=
  Relation.ReflTransGen fun s t ↦ step m slot s = some t

/-- At the `switch`, with the character at an address. -/
def WriteF.at (m : ByteMem) (p ap : ℕ) (flags width : U32) (out : List Byte) : WriteF :=
  ⟨p + 1, ap, .reswitch flags width (m p), out⟩

variable {out : List Byte}

theorem reaches_of_switch {t : WriteF} (hch : m p = ch)
    (h : switch m slot ⟨p + 1, ap, .reswitch flags width ch, out⟩ flags width ch = some t) :
    Reaches m slot (.at m p ap flags width out) t := by
  subst hch
  exact .single h

/-- After `goto rflag`. -/
theorem reaches_rflag :
    Reaches m slot ⟨p, ap, .rflag flags width, out⟩ (.at m p ap flags width out) :=
  .single rfl

/-- A character that is none of a directive. -/
theorem reaches_text (h0 : c ≠ 0) (hc : c ≠ chr '%') (h : m p = c) :
    Reaches m slot ⟨p, ap, .text, out⟩ ⟨p + 1, ap, .text, out ++ [c]⟩ := by
  subst h
  exact .single (if_pos ⟨h0, hc⟩)

theorem reaches_percent (h : m p = chr '%') :
    Reaches m slot ⟨p, ap, .text, out⟩ (.at m (p + 1) ap 0 0 out) := by
  refine .head ?_ reaches_rflag
  show (if m p ≠ 0 ∧ m p ≠ chr '%' then _ else _) = _
  rw [h, if_neg (by decide), if_neg (by decide)]

theorem reaches_left (h : m p = chr '-') :
    Reaches m slot (.at m p ap flags width out)
      (.at m (p + 1) ap (flags ||| LADJUST) width out) := by
  exact .trans (reaches_of_switch h (if_pos rfl)) reaches_rflag

theorem reaches_zero (h : m p = chr '0') (hflags : has flags ZEROPAD = false) :
    Reaches m slot (.at m p ap flags width out)
      (.at m (p + 1) ap (flags ||| ZEROPAD) width out) := by
  refine .trans (reaches_of_switch h ?_) reaches_rflag
  rw [switch, if_neg (by decide), if_pos ⟨rfl, hflags⟩]

/-- A digit that is not taken for a flag. -/
theorem reaches_digit (hlo : chr '0' ≤ m p) (hhi : m p ≤ chr '9')
    (hflags : m p = chr '0' → has flags ZEROPAD = true) :
    Reaches m slot (.at m p ap flags width out)
      (.at m (p + 1) ap flags (addDigit width (m p - chr '0')) out) := by
  have hminus : m p ≠ chr '-' := fun h ↦ by
    rw [h] at hlo
    exact absurd hlo (by decide)
  have hloop : ¬(m (p + 1) ≤ chr '0' ∧ m (p + 1) ≥ chr '9') := fun h ↦ by
    have hlt : (chr '0').toNat < (chr '9').toNat := by decide
    have hle : (m (p + 1)).toNat ≤ (chr '0').toNat := h.1
    have hge : (chr '9').toNat ≤ (m (p + 1)).toNat := h.2
    omega
  refine .trans (reaches_of_switch (t := ⟨p + 1, ap, .digits flags width (m p), out⟩) rfl ?_)
    (.single (if_neg hloop))
  rw [switch, if_neg hminus, if_neg fun h ↦ by
    rw [hflags h.1] at h
    exact absurd h.2 (by decide), if_pos ⟨hlo, hhi⟩]

theorem switch_of_letter {s : WriteF} (hminus : ch ≠ chr '-')
    (hdigit : ¬(chr '0' ≤ ch ∧ ch ≤ chr '9')) :
    switch m slot s flags width ch =
      if ch = chr 'h' then
        if m s.fmt = chr 'h' then
          some { s with fmt := s.fmt + 1, mode := .rflag (flags ||| CHARINT) width }
        else some { s with mode := .rflag (flags ||| SHORTINT) width }
      else if ch = chr 'l' then
        if m s.fmt = chr 'l' then
          some { s with fmt := s.fmt + 1, mode := .rflag (flags ||| LLONGINT) width }
        else some { s with mode := .rflag (flags ||| LONGINT) width }
      else if ch = chr 'q' then some { s with mode := .rflag (flags ||| LLONGINT) width }
      else if ch = chr 'z' then some { s with mode := .rflag (flags ||| SIZEINT) width }
      else if takesArg ch then
        (convert m flags width ch (slot s.ap)).map fun str ↦
          { s with ap := s.ap + 1, mode := .text, out := s.out ++ str }
      else if ch = chr '%' then some { s with mode := .text, out := s.out ++ [chr '%'] }
      else some { s with mode := .text } := by
  rw [switch, if_neg hminus, if_neg fun h ↦ hdigit (by rw [h.1]; decide), if_neg hdigit]

theorem reaches_h (h : m p = chr 'h') :
    Reaches m slot (.at m p ap flags width out)
      (if m (p + 1) = chr 'h' then .at m (p + 2) ap (flags ||| CHARINT) width out
      else .at m (p + 1) ap (flags ||| SHORTINT) width out) := by
  split_ifs with hnext
  · refine .trans (reaches_of_switch h ?_) reaches_rflag
    rw [switch_of_letter (by decide) (by decide), if_pos rfl, if_pos hnext]
  · refine .trans (reaches_of_switch h ?_) reaches_rflag
    rw [switch_of_letter (by decide) (by decide), if_pos rfl, if_neg hnext]

theorem reaches_l (h : m p = chr 'l') :
    Reaches m slot (.at m p ap flags width out)
      (if m (p + 1) = chr 'l' then .at m (p + 2) ap (flags ||| LLONGINT) width out
      else .at m (p + 1) ap (flags ||| LONGINT) width out) := by
  split_ifs with hnext
  · refine .trans (reaches_of_switch h ?_) reaches_rflag
    rw [switch_of_letter (by decide) (by decide), if_neg (by decide), if_pos rfl, if_pos hnext]
  · refine .trans (reaches_of_switch h ?_) reaches_rflag
    rw [switch_of_letter (by decide) (by decide), if_neg (by decide), if_pos rfl, if_neg hnext]

theorem reaches_q (h : m p = chr 'q') :
    Reaches m slot (.at m p ap flags width out)
      (.at m (p + 1) ap (flags ||| LLONGINT) width out) := by
  refine .trans (reaches_of_switch h ?_) reaches_rflag
  rw [switch_of_letter (by decide) (by decide), if_neg (by decide), if_neg (by decide), if_pos rfl]

theorem reaches_z (h : m p = chr 'z') :
    Reaches m slot (.at m p ap flags width out)
      (.at m (p + 1) ap (flags ||| SIZEINT) width out) := by
  refine .trans (reaches_of_switch h ?_) reaches_rflag
  rw [switch_of_letter (by decide) (by decide), if_neg (by decide), if_neg (by decide),
    if_neg (by decide), if_pos rfl]

/-- The letters in front of the last one. -/
theorem reaches_size (size : Size) (h : Spells m p size.encode)
    (hh : m (p + size.encode.length) ≠ chr 'h') (hl : m (p + size.encode.length) ≠ chr 'l') :
    Reaches m slot (.at m p ap flags width out)
      (.at m (p + size.encode.length) ap (flags ||| size.flag) width out) := by
  cases size with
  | none =>
    have hflag : flags ||| Size.none.flag = flags := BitVec.or_zero
    rw [hflag]
    exact .refl
  | h =>
    have hstep : Reaches m slot (.at m p ap flags width out) _ := reaches_h h.1
    exact hstep.trans (by rw [if_neg (show m (p + 1) ≠ chr 'h' from hh)]; exact .refl)
  | hh =>
    have hstep : Reaches m slot (.at m p ap flags width out) _ := reaches_h h.1
    rw [if_pos h.2.1] at hstep
    exact hstep
  | l =>
    have hstep : Reaches m slot (.at m p ap flags width out) _ := reaches_l h.1
    exact hstep.trans (by rw [if_neg (show m (p + 1) ≠ chr 'l' from hl)]; exact .refl)
  | ll =>
    have hstep : Reaches m slot (.at m p ap flags width out) _ := reaches_l h.1
    rw [if_pos h.2.1] at hstep
    exact hstep
  | q => exact reaches_q h.1
  | z => exact reaches_z h.1

/-! ## A directive -/

/-- The flags are those of a directive. -/
structure FlagsOf (d : Directive) (wide : Bool) (flags : U32) : Prop where
  left : has flags LADJUST = d.left
  zero : has flags ZEROPAD = d.zero
  wide : (has flags LLONGINT || has flags LONGINT) = (wide || d.size.wide)

variable {d : Directive} {wide : Bool}

theorem FlagsOf.long (h : FlagsOf d wide flags) : FlagsOf d true (flags ||| LONGINT) := by
  refine ⟨?_, ?_, ?_⟩
  · rw [has_or, h.left]
    exact Bool.or_false _
  · rw [has_or, h.zero]
    exact Bool.or_false _
  · rw [has_or, has_or, show has LONGINT LONGINT = true by decide]
    simp

theorem printN_eq (h : FlagsOf d wide flags) (hwidth : width.toInt = d.width) (w : List Byte) :
    printN flags width w = d.pad w := by
  have hpad : padding flags width w.length =
      List.replicate (d.width - w.length) (if d.zero then chr '0' else chr ' ') := by
    rw [padding, hwidth, padChar, h.zero]
    congr 1
    omega
  rw [printN, h.left, Directive.pad, hpad]
  cases d.left <;> simp

theorem toNat_unsignedArg (h : FlagsOf d wide flags) (v : U64) :
    (unsignedArg flags v).toNat = d.unsignedValue wide v := by
  have hlow : ((v.setWidth 32).setWidth 64).toNat = v.toNat % 2 ^ 32 := by
    rw [BitVec.toNat_setWidth, BitVec.toNat_setWidth]
    omega
  rw [unsignedArg, Directive.unsignedValue, ← h.wide]
  cases has flags LLONGINT <;> cases has flags LONGINT <;> simp [hlow]

theorem toInt_signedArg (h : FlagsOf d wide flags) (v : U64) :
    (signedArg flags v).toInt = d.signedValue wide v := by
  have hlow : ((v.setWidth 32).signExtend 64).toInt = (v.setWidth 32).toInt :=
    BitVec.toInt_signExtend_of_le (by decide)
  rw [signedArg, Directive.signedValue, ← h.wide]
  cases has flags LLONGINT <;> cases has flags LONGINT <;> simp [hlow]

theorem convert_unsigned {hexStart : Byte} (hhex : hexStart = chr 'A' ∨ hexStart = chr 'a')
    (hbase : 8 ≤ base) (hle : base ≤ 16) (h : FlagsOf d wide flags)
    (hwidth : width.toInt = d.width) (v : U64) :
    printInteger flags width (unsignedArg flags v) base hexStart =
      some (d.pad (figures hexStart base (d.unsignedValue wide v))) := by
  rw [printInteger_eq hhex hbase hle, printN_eq h hwidth, toNat_unsignedArg h]

/-- Up to base ten there are no letters. -/
theorem figures_of_le (hexStart : Byte) (hbase : 2 ≤ base) (hle : base ≤ 10) (n : ℕ) :
    figures hexStart base n = numeral base n := by
  have hsame : (numeral base n).map upper = numeral base n := by
    refine (List.map_congr_left fun c hc ↦ ?_).trans (List.map_id _)
    obtain ⟨e, he, hvalue⟩ := (represents_numeral hbase (by omega) n).digits c hc
    have hall : ∀ c : Byte, ∀ e < 10, digitValue c = some e → upper c = id c := by decide +kernel
    exact hall c e (by omega) hvalue
  rw [figures, hsame, ite_self]

theorem convert_signed (h : FlagsOf d wide flags) (hwidth : width.toInt = d.width) (v : U64) :
    (if (signedArg flags v).toInt < 0 then
      (printInteger flags width (-signedArg flags v) 10 (chr 'A')).map (chr '-' :: ·)
    else printInteger flags width (signedArg flags v) 10 (chr 'A')) =
      some (d.signed (d.signedValue wide v)) := by
  have hint := toInt_signedArg h v
  obtain ⟨n, hn⟩ : ∃ n, signedArg flags v = n := ⟨_, rfl⟩
  rw [hn] at hint ⊢
  have hcases := BitVec.toInt_eq_toNat_cond n
  have hlt := n.isLt
  rw [Directive.signed, ← hint]
  have hprint : ∀ k : U64, k.toNat = n.toInt.natAbs →
      printInteger flags width k 10 (chr 'A') = some (d.pad (numeral 10 n.toInt.natAbs)) :=
    fun k hk ↦ by
      rw [printInteger_eq (.inl rfl) (by decide) (by decide), printN_eq h hwidth,
        figures_of_le _ (by decide) (by decide), hk]
  by_cases hneg : n.toInt < 0
  · have habs : (-n).toNat = n.toInt.natAbs := by
      rw [BitVec.toNat_neg]
      split_ifs at hcases <;> omega
    rw [if_pos hneg, if_pos hneg, hprint _ habs]
    rfl
  · have habs : n.toNat = n.toInt.natAbs := by
      split_ifs at hcases <;> omega
    rw [if_neg hneg, if_neg hneg, hprint _ habs]
    rfl

/-- The strings that there are, for `%s`. -/
def Texts (m : ByteMem) (text : U64 → List Byte) (v : U64) : Prop :=
  v = 0 ∨ StringAt m v.toNat (text v) ∧ (text v).length < 2 ^ 31

theorem strnlen_eq {maxlen : ℕ} (h : Spells m p w) (hnull : m (p + w.length) = 0)
    (hne : ∀ c ∈ w, c ≠ 0) (hmax : w.length < maxlen) : strnlen m p maxlen = w.length := by
  induction w generalizing p maxlen with
  | nil =>
    obtain ⟨k, rfl⟩ : ∃ k, maxlen = k + 1 := ⟨maxlen - 1, by omega⟩
    exact if_pos hnull
  | cons c w ih =>
    obtain ⟨k, rfl⟩ : ∃ k, maxlen = k + 1 := ⟨maxlen - 1, by omega⟩
    rw [List.length_cons] at hmax hnull ⊢
    rw [strnlen, if_neg (h.1.symm ▸ hne c List.mem_cons_self),
      ih h.2 (by rwa [Nat.add_right_comm, Nat.add_assoc])
        (fun x hx ↦ hne x (List.mem_cons_of_mem c hx)) (by omega)]

theorem bytesAt_of_stringAt (h : StringAt m p w) : bytesAt m p w.length = w :=
  List.ext_getElem (length_bytesAt ..) fun i hi hi' ↦ by rw [getElem_bytesAt, h.char i hi']

theorem convert_string {text : U64 → List Byte} (h : FlagsOf d wide flags)
    (hwidth : width.toInt = d.width) {v : U64} (hv : Texts m text v) :
    (if v = 0 then some (printN flags width ("(null)".toList.map chr))
    else some (printN flags width (bytesAt m v.toNat (strnlen m v.toNat (2 ^ 64 - 1))))) =
      some (d.pad (if v = 0 then "(null)".toList.map chr else text v)) := by
  by_cases hzero : v = 0
  · rw [if_pos hzero, if_pos hzero, printN_eq h hwidth]
  · obtain ⟨hstring, hlen⟩ := hv.resolve_left hzero
    rw [if_neg hzero, if_neg hzero, printN_eq h hwidth,
      strnlen_eq (spells_of_stringAt hstring) hstring.null hstring.ne_zero (by omega),
      bytesAt_of_stringAt hstring]

/-- **What is printed for a directive** is what it says. -/
theorem convert_eq {text : U64 → List Byte} (h : FlagsOf d false flags)
    (hwidth : width.toInt = d.width) {v : U64} (hv : d.kind = .s → Texts m text v)
    (htakes : d.takes = 1) :
    convert m flags width d.kind.char v = some (d.render text v) := by
  rw [Directive.takes] at htakes
  cases hkind : d.kind with
  | D =>
    rw [Directive.render, hkind]
    exact convert_signed h.long hwidth v
  | d =>
    rw [Directive.render, hkind]
    exact convert_signed h hwidth v
  | i =>
    rw [Directive.render, hkind]
    exact convert_signed h hwidth v
  | O =>
    rw [Directive.render, hkind]
    exact (convert_unsigned (.inl rfl) (by decide) (by decide) h.long hwidth v).trans
      (by rw [figures_of_le _ (by decide) (by decide)])
  | o =>
    rw [Directive.render, hkind]
    exact (convert_unsigned (.inl rfl) (by decide) (by decide) h hwidth v).trans
      (by rw [figures_of_le _ (by decide) (by decide)])
  | s =>
    rw [Directive.render, hkind]
    exact convert_string h hwidth (hv hkind)
  | U =>
    rw [Directive.render, hkind]
    exact (convert_unsigned (.inl rfl) (by decide) (by decide) h.long hwidth v).trans
      (by rw [figures_of_le _ (by decide) (by decide)])
  | u =>
    rw [Directive.render, hkind]
    exact (convert_unsigned (.inl rfl) (by decide) (by decide) h hwidth v).trans
      (by rw [figures_of_le _ (by decide) (by decide)])
  | X =>
    rw [Directive.render, hkind]
    exact convert_unsigned (.inl rfl) (by decide) (by decide) h hwidth v
  | x =>
    rw [Directive.render, hkind]
    exact convert_unsigned (.inr rfl) (by decide) (by decide) h hwidth v
  | percent =>
    rw [hkind] at htakes
    cases htakes

theorem addDigit_zero : ∀ k < 10, addDigit 0 (digitChar k - chr '0') = BitVec.ofNat 32 k := by
  decide

theorem addDigit_digit : ∀ j < 10, ∀ k < 10,
    addDigit (BitVec.ofNat 32 j) (digitChar k - chr '0') = BitVec.ofNat 32 (10 * j + k) := by
  decide +kernel

theorem digitChar_bounds : ∀ k < 10, chr '0' ≤ digitChar k ∧ digitChar k ≤ chr '9' ∧
    (digitChar k = chr '0' → k = 0) := by
  decide

theorem reaches_width {n : ℕ} (hn : n < 100)
    (hok : has flags ZEROPAD = true ∨ n % 10 ≠ 0 ∨ n = 0)
    (h : Spells m p (Directive.widthDigits n)) :
    Reaches m slot (.at m p ap flags 0 out)
      (.at m (p + (Directive.widthDigits n).length) ap flags (BitVec.ofNat 32 n) out) := by
  have hdigit : ∀ {q k : ℕ} (total : U32), k < 10 → m q = digitChar k →
      (k = 0 → has flags ZEROPAD = true) →
      Reaches m slot (.at m q ap flags total out)
        (.at m (q + 1) ap flags (addDigit total (digitChar k - chr '0')) out) := by
    intro q k total hk hq hzero
    obtain ⟨hlo, hhi, heq⟩ := digitChar_bounds k hk
    rw [← hq] at hlo hhi heq ⊢
    exact reaches_digit hlo hhi fun h ↦ hzero (heq h)
  rw [Directive.widthDigits] at h ⊢
  split_ifs at h ⊢ with h0 h10
  · subst h0
    exact .refl
  · have hstep := hdigit 0 h10 h.1 fun h ↦ absurd h h0
    rw [addDigit_zero n h10] at hstep
    exact hstep
  · obtain ⟨htens, hones, -⟩ := h
    have hstep := hdigit 0 (show n / 10 < 10 by omega) htens fun h ↦ by omega
    have hstep' := hdigit (BitVec.ofNat 32 (n / 10)) (show n % 10 < 10 by omega) hones
      fun h ↦ by
        rcases hok with hflag | hne | hzero
        · exact hflag
        · exact absurd h hne
        · exact absurd hzero h0
    rw [addDigit_zero _ (by omega)] at hstep
    rw [addDigit_digit _ (by omega) _ (by omega), Nat.div_add_mod] at hstep'
    exact hstep.trans hstep'

/-- The last letter. -/
theorem reaches_kind (out : List Byte) {text : U64 → List Byte} (h : FlagsOf d false flags)
    (hwidth : width.toInt = d.width) (hv : d.kind = .s → Texts m text (slot ap))
    (hch : m p = d.kind.char) :
    Reaches m slot (.at m p ap flags width out)
      ⟨p + 1, ap + d.takes, .text, out ++ d.render text (slot ap)⟩ := by
  by_cases hpercent : d.kind = .percent
  · refine reaches_of_switch (show m p = chr '%' by rw [hch, hpercent]; rfl) ?_
    have hrender : d.render text (slot ap) = [chr '%'] := by rw [Directive.render, hpercent]
    have htakes : d.takes = 0 := by rw [Directive.takes, hpercent]
    rw [switch_of_letter (by decide) (by decide), hrender, htakes]
    rfl
  · have htakes : d.takes = 1 := by
      rw [Directive.takes]
      cases hkind : d.kind <;> first | rfl | exact absurd hkind hpercent
    have hletter : d.kind.char ≠ chr '-' ∧ ¬(chr '0' ≤ d.kind.char ∧ d.kind.char ≤ chr '9') ∧
        d.kind.char ≠ chr 'h' ∧ d.kind.char ≠ chr 'l' ∧ d.kind.char ≠ chr 'q' ∧
        d.kind.char ≠ chr 'z' ∧ takesArg d.kind.char = true := by
      cases hkind : d.kind <;> first | decide | exact absurd hkind hpercent
    obtain ⟨hminus, hdigit, hh, hl, hq, hz, harg⟩ := hletter
    refine reaches_of_switch hch ?_
    rw [switch_of_letter hminus hdigit, if_neg hh, if_neg hl, if_neg hq, if_neg hz, if_pos harg,
      convert_eq h hwidth hv htakes, htakes]
    rfl

theorem kind_char_ne (kind : Kind) : kind.char ≠ chr 'h' ∧ kind.char ≠ chr 'l' := by
  cases kind <;> decide

/-- The flags that are set by the `-`. -/
def Directive.leftFlags (d : Directive) : U32 := if d.left then 0 ||| LADJUST else 0

/-- And by the zero. -/
def Directive.padFlags (d : Directive) : U32 :=
  if d.zero then d.leftFlags ||| ZEROPAD else d.leftFlags

theorem has_leftFlags (d : Directive) : has d.leftFlags LADJUST = d.left ∧
    has d.leftFlags ZEROPAD = false ∧ has d.leftFlags LLONGINT = false ∧
    has d.leftFlags LONGINT = false := by
  rw [Directive.leftFlags]
  cases d.left <;> decide

theorem has_padFlags (d : Directive) : has d.padFlags LADJUST = d.left ∧
    has d.padFlags ZEROPAD = d.zero ∧ has d.padFlags LLONGINT = false ∧
    has d.padFlags LONGINT = false := by
  obtain ⟨hleft, hzero, hll, hl⟩ := has_leftFlags d
  rw [Directive.padFlags]
  cases d.zero with
  | false => exact ⟨hleft, hzero, hll, hl⟩
  | true =>
    rw [if_pos rfl, has_or, has_or, has_or, has_or, hleft, hzero, hll, hl]
    exact ⟨Bool.or_false _, by decide, by decide, by decide⟩

theorem flagsOf_size (d : Directive) : FlagsOf d false (d.padFlags ||| d.size.flag) := by
  obtain ⟨hleft, hzero, hll, hl⟩ := has_padFlags d
  refine ⟨?_, ?_, ?_⟩
  · rw [has_or, hleft]
    cases d.size <;> exact Bool.or_false _
  · rw [has_or, hzero]
    cases d.size <;> exact Bool.or_false _
  · rw [has_or, has_or, hll, hl]
    cases d.size <;> decide

/-- **A directive**, from its `%` to the end. -/
theorem reaches_directive (out : List Byte) {text : U64 → List Byte} (hok : d.Ok)
    (hv : d.kind = .s → Texts m text (slot ap)) (h : Spells m p d.encode) :
    Reaches m slot ⟨p, ap, .text, out⟩
      ⟨p + d.encode.length, ap + d.takes, .text, out ++ d.render text (slot ap)⟩ := by
  obtain ⟨hpercent, hrest⟩ := h
  obtain ⟨hleft, hrest⟩ := spells_append.mp hrest
  obtain ⟨hzero, hrest⟩ := spells_append.mp hrest
  obtain ⟨hwidth, hrest⟩ := spells_append.mp hrest
  obtain ⟨hsize, hkind, -⟩ := spells_append.mp hrest
  obtain ⟨q₁, hq₁⟩ : ∃ q, p + 1 + (if d.left then [chr '-'] else []).length = q := ⟨_, rfl⟩
  obtain ⟨q₂, hq₂⟩ : ∃ q, q₁ + (if d.zero then [chr '0'] else []).length = q := ⟨_, rfl⟩
  obtain ⟨q₃, hq₃⟩ : ∃ q, q₂ + (Directive.widthDigits d.width).length = q := ⟨_, rfl⟩
  rw [hq₁] at hzero hwidth hsize hkind
  rw [hq₂] at hwidth hsize hkind
  rw [hq₃] at hsize hkind
  have h₁ : Reaches m slot (.at m (p + 1) ap 0 0 out) (.at m q₁ ap d.leftFlags 0 out) := by
    rw [← hq₁, Directive.leftFlags]
    cases hd : d.left with
    | false => exact .refl
    | true =>
      rw [hd] at hleft
      exact reaches_left hleft.1
  have h₂ : Reaches m slot (.at m q₁ ap d.leftFlags 0 out) (.at m q₂ ap d.padFlags 0 out) := by
    rw [← hq₂, Directive.padFlags]
    cases hd : d.zero with
    | false => exact .refl
    | true =>
      rw [hd] at hzero
      exact reaches_zero hzero.1 (has_leftFlags d).2.1
  have h₃ : Reaches m slot (.at m q₂ ap d.padFlags 0 out)
      (.at m q₃ ap d.padFlags (BitVec.ofNat 32 d.width) out) := by
    rw [← hq₃]
    exact reaches_width hok.1 (by rw [(has_padFlags d).2.1]; exact hok.2) hwidth
  have hne := kind_char_ne d.kind
  have h₄ : Reaches m slot (.at m q₃ ap d.padFlags (BitVec.ofNat 32 d.width) out)
      (.at m (q₃ + d.size.encode.length) ap (d.padFlags ||| d.size.flag)
        (BitVec.ofNat 32 d.width) out) :=
    reaches_size d.size hsize (hkind ▸ hne.1) (hkind ▸ hne.2)
  have htoInt : (BitVec.ofNat 32 d.width).toInt = d.width := by
    have hlt := hok.1
    have hnat : (BitVec.ofNat 32 d.width).toNat = d.width := by
      rw [BitVec.toNat_ofNat]
      omega
    rw [BitVec.toInt_eq_toNat_cond, hnat, if_pos (by omega)]
  have h₅ := reaches_kind out (flagsOf_size d) htoInt hv hkind
  have hend : p + d.encode.length = q₃ + d.size.encode.length + 1 := by
    rw [Directive.encode, List.length_cons, List.length_append, List.length_append,
      List.length_append, List.length_append, List.length_singleton]
    omega
  rw [hend]
  exact (reaches_percent hpercent).trans (h₁.trans (h₂.trans (h₃.trans (h₄.trans h₅))))

/-! ## A format -/

/-- The arguments that are strings are there. -/
def StringsAt (m : ByteMem) (slot : ℕ → U64) (text : U64 → List Byte) : ℕ → List Piece → Prop
  | _, [] => True
  | ap, .text _ :: ps => StringsAt m slot text ap ps
  | ap, .directive d :: ps =>
    (d.kind = .s → Texts m text (slot ap)) ∧ StringsAt m slot text (ap + d.takes) ps

/-- The pieces, one after the other. -/
theorem reaches_pieces (out : List Byte) {text : U64 → List Byte} {ps : List Piece}
    (hok : ∀ x ∈ ps, x.Ok) (hstrings : StringsAt m slot text ap ps) (h : Spells m p (encode ps)) :
    Reaches m slot ⟨p, ap, .text, out⟩
      ⟨p + (encode ps).length, ap + takes ps, .text, out ++ render text slot ap ps⟩ := by
  induction ps generalizing p ap out with
  | nil =>
    rw [render, List.append_nil]
    exact .refl
  | cons x ps ih =>
    obtain ⟨hx, hps⟩ := List.forall_mem_cons.mp hok
    cases x with
    | text c =>
      have hrest := ih (out ++ [c]) hps hstrings h.2
      rw [encode, render, takes, List.length_cons, Nat.add_comm _ 1, ← Nat.add_assoc,
        List.append_cons out c]
      exact (reaches_text hx.1 hx.2 h.1).trans hrest
    | directive d =>
      obtain ⟨hd, hrest⟩ := spells_append.mp h
      have hpiece := reaches_directive out hx hstrings.1 hd
      have hrest := ih (out ++ d.render text (slot ap)) hps hstrings.2 hrest
      rw [encode, render, takes, List.length_append, ← Nat.add_assoc, ← Nat.add_assoc,
        ← List.append_assoc]
      exact hpiece.trans hrest

/-- What is reached is returned from. -/
theorem writeF_of_reaches {s t u : WriteF} (h : Reaches m slot s t) {labels : ℕ}
    (ht : writeF m slot labels t = some u) : ∃ labels, writeF m slot labels s = some u := by
  induction h using Relation.ReflTransGen.head_induction_on with
  | refl => exact ⟨labels, ht⟩
  | @head s s' hstep _ ih =>
    obtain ⟨k, hk⟩ := ih
    refine ⟨k + 1, ?_⟩
    rw [writeF]
    cases hmode : s.mode with
    | done =>
      rw [step, hmode] at hstep
      cases hstep
    | _ =>
      show (step m slot s).bind (writeF m slot k) = some u
      rw [hstep]
      exact hk

/-- **What `write_f` prints** for a format is what its pieces say, with one argument after the
other.  It comes to the null at the end, and no further. -/
theorem writeF_render {text : U64 → List Byte} {ps : List Piece} (hok : ∀ x ∈ ps, x.Ok)
    (hstrings : StringsAt m slot text 0 ps) (h : StringAt m p (encode ps)) :
    ∃ labels, writeF m slot labels (.start p) =
      some ⟨p + (encode ps).length, takes ps, .done, render text slot 0 ps⟩ := by
  have hreach := reaches_pieces [] hok hstrings (spells_of_stringAt h)
  rw [Nat.zero_add, List.nil_append] at hreach
  have hnull := h.null
  have hstep : step m slot ⟨p + (encode ps).length, takes ps, .text, render text slot 0 ps⟩ =
      some ⟨p + (encode ps).length, takes ps, .done, render text slot 0 ps⟩ := by
    show (if m _ ≠ 0 ∧ m _ ≠ chr '%' then _ else _) = _
    rw [hnull, if_neg (by decide), if_pos rfl]
  have hdone : writeF m slot 1 ⟨p + (encode ps).length, takes ps, .done, render text slot 0 ps⟩ =
      some ⟨p + (encode ps).length, takes ps, .done, render text slot 0 ps⟩ := rfl
  exact writeF_of_reaches (hreach.tail hstep) hdone

/-- A format with a string that is not there and all the digits of an argument. -/
def samplePieces : List Piece :=
  [.text (chr 'x'), .directive ⟨true, false, 9, .none, .s⟩, .directive ⟨false, true, 16, .ll, .x⟩]

theorem writeF_render_sample : ∃ labels,
    writeF (fun a ↦ (encode samplePieces).getD a 0) (fun i ↦ BitVec.ofNat 64 (i * 51966)) labels
      (.start 0) = some ⟨12, 2, .done,
        render (fun _ ↦ []) (fun i ↦ BitVec.ofNat 64 (i * 51966)) 0 samplePieces⟩ := by
  have hok : ∀ x ∈ samplePieces, x.Ok := by
    refine List.forall_mem_cons.mpr ⟨⟨by decide, by decide⟩,
      List.forall_mem_cons.mpr ⟨⟨by decide, by decide⟩,
        List.forall_mem_cons.mpr ⟨⟨by decide, by decide⟩, fun x hx ↦ (nomatch hx)⟩⟩⟩
  refine writeF_render (p := 0) hok ⟨fun _ ↦ .inl rfl, fun h ↦ (nomatch h), trivial⟩
    ⟨fun i hi ↦ ?_, by decide, by decide⟩
  rw [Nat.zero_add, List.getD_eq_getElem _ _ hi]

/-! ## The end of a format -/

/-- What does not end a directive. -/
def goesOn (c : Byte) : Bool := ("-0123456789hlqz".toList.map chr).any (· = c)

/-- A directive is open after some characters, if one was before. -/
def openAfter : Bool → List Byte → Bool
  | isOpen, [] => isOpen
  | false, c :: w => openAfter (c == chr '%') w
  | true, c :: w => openAfter (goesOn c) w

theorem goesOn_iff : ∀ c : Byte, goesOn c = true ↔ c = chr '-' ∨ (chr '0' ≤ c ∧ c ≤ chr '9') ∨
    c = chr 'h' ∨ c = chr 'l' ∨ c = chr 'q' ∨ c = chr 'z' := by
  decide +kernel

theorem convert_isSome (flags width : U32) (ch : Byte) (arg : U64) :
    ∃ str, convert m flags width ch arg = some str := by
  have hprint : ∀ {f : U32} {k : U64} {b : ℕ} {hexStart : Byte}, (b = 8 ∨ b = 10 ∨ b = 16) →
      hexStart = chr 'A' ∨ hexStart = chr 'a' →
      ∃ str, printInteger f width k b hexStart = some str :=
    fun hb hhex ↦ ⟨_, printInteger_eq hhex (by omega) (by omega) _ width _⟩
  have hsigned : ∀ (f : U32) (n : U64), ∃ str, (if n.toInt < 0 then
      (printInteger f width (-n) 10 (chr 'A')).map (chr '-' :: ·)
      else printInteger f width n 10 (chr 'A')) = some str := fun f n ↦ by
    split
    · obtain ⟨str, hstr⟩ := hprint (f := f) (k := -n) (.inr (.inl rfl)) (.inl rfl)
      exact ⟨_, congrArg (Option.map (chr '-' :: ·)) hstr⟩
    · exact hprint (.inr (.inl rfl)) (.inl rfl)
  rw [convert]
  split
  · exact hsigned _ _
  split
  · exact hprint (.inl rfl) (.inl rfl)
  split
  · split <;> exact ⟨_, rfl⟩
  split
  · exact hprint (.inr (.inl rfl)) (.inl rfl)
  split
  · exact hprint (.inr (.inr rfl)) (.inl rfl)
  split
  · exact hprint (.inr (.inr rfl)) (.inr rfl)
  · exact ⟨[], rfl⟩

/-- A character that ends a directive, whatever it is. -/
theorem reaches_last (h : goesOn (m p) = false) :
    ∃ ap' out', Reaches m slot (.at m p ap flags width out) ⟨p + 1, ap', .text, out'⟩ := by
  have hnot := mt (goesOn_iff (m p)).mpr (by rw [h]; decide)
  simp only [not_or] at hnot
  obtain ⟨hminus, hdigit, hh, hl, hq, hz⟩ := hnot
  have hswitch : switch m slot ⟨p + 1, ap, .reswitch flags width (m p), out⟩ flags width (m p) =
      _ := switch_of_letter hminus hdigit
  rw [if_neg hh, if_neg hl, if_neg hq, if_neg hz] at hswitch
  split_ifs at hswitch
  · obtain ⟨str, hstr⟩ : ∃ str, convert m flags width (m p) (slot ap) = some str :=
      convert_isSome flags width (m p) (slot ap)
    rw [hstr] at hswitch
    exact ⟨_, _, reaches_of_switch rfl hswitch⟩
  · exact ⟨_, _, reaches_of_switch rfl hswitch⟩
  · exact ⟨_, _, reaches_of_switch rfl hswitch⟩

/-- What becomes of the machine at an address: it is in a directive there, or not. -/
def ComesTo (m : ByteMem) (slot : ℕ → U64) (s : WriteF) (q : ℕ) : Bool → Prop
  | true => ∃ ap flags width out, Reaches m slot s (.at m q ap flags width out)
  | false => ∃ ap out, Reaches m slot s ⟨q, ap, .text, out⟩

theorem ComesTo.head {s t : WriteF} {q : ℕ} {isOpen : Bool} (h : Reaches m slot s t)
    (ht : ComesTo m slot t q isOpen) : ComesTo m slot s q isOpen := by
  cases isOpen with
  | true =>
    obtain ⟨ap, flags, width, out, ht⟩ := ht
    exact ⟨ap, flags, width, out, h.trans ht⟩
  | false =>
    obtain ⟨ap, out, ht⟩ := ht
    exact ⟨ap, out, h.trans ht⟩

/-- What the machine is at, with a directive open or not. -/
inductive Stands (m : ByteMem) (p : ℕ) : WriteF → Bool → Prop
  | text {ap : ℕ} {out : List Byte} : Stands m p ⟨p, ap, .text, out⟩ false
  | inside {ap : ℕ} {flags width : U32} {out : List Byte} :
      Stands m p (.at m p ap flags width out) true

/-- **The machine goes through any characters**, and is in a directive after them if one is open
then. -/
theorem comesTo_of_spells {n : ℕ} : ∀ {w : List Byte} {p : ℕ} {s : WriteF} {isOpen : Bool},
    w.length ≤ n → (∀ c ∈ w, c ≠ 0) → Spells m p w → m (p + w.length) = 0 →
    Stands m p s isOpen → ComesTo m slot s (p + w.length) (openAfter isOpen w) := by
  induction n with
  | zero =>
    intro w p s isOpen hn _ _ _ hs
    obtain rfl := List.length_eq_zero_iff.mp (Nat.le_zero.mp hn)
    cases hs with
    | inside => exact ⟨_, _, _, _, .refl⟩
    | text => exact ⟨_, _, .refl⟩
  | succ n ih =>
    intro w p s isOpen hn hne hw hnull hs
    cases w with
    | nil => exact ih (Nat.zero_le n) hne hw hnull hs
    | cons c w =>
      obtain ⟨hc, hw⟩ := hw
      have hrest : ∀ x ∈ w, x ≠ 0 := fun x hx ↦ hne x (List.mem_cons_of_mem c hx)
      have hlen : p + (c :: w).length = p + 1 + w.length := by
        rw [List.length_cons]
        omega
      rw [List.length_cons] at hn
      rw [hlen] at hnull ⊢
      have hnext : ∀ {t : WriteF} {isOpen' : Bool}, Stands m (p + 1) t isOpen' →
          ComesTo m slot t (p + 1 + w.length) (openAfter isOpen' w) :=
        fun ht ↦ ih (by omega) hrest hw hnull ht
      cases hs with
      | @text ap out =>
        rw [openAfter]
        by_cases hpercent : c = chr '%'
        · rw [beq_iff_eq.mpr hpercent]
          exact (hnext .inside).head (reaches_percent (hc.trans hpercent))
        · rw [beq_eq_false_iff_ne.mpr hpercent]
          exact (hnext .text).head
            (reaches_text (hne c List.mem_cons_self) hpercent hc)
      | @inside ap flags width out =>
        rw [openAfter]
        by_cases hgoes : goesOn c = true
        · rw [hgoes]
          -- two of the letters may have been read together
          have hdouble : ∀ {f : U32} {t : WriteF}, goesOn (m (p + 1)) = true →
              Reaches m slot (.at m p ap flags width out) t →
              t = .at m (p + 2) ap f width out →
              ComesTo m slot (.at m p ap flags width out) (p + 1 + w.length)
                (openAfter true w) := by
            rintro f t hsame hreach rfl
            cases w with
            | nil =>
              rw [List.length_nil, Nat.add_zero] at hnull
              rw [hnull] at hsame
              exact absurd hsame (by decide)
            | cons c' w =>
              have hgoes' : goesOn c' = true := hw.1 ▸ hsame
              have hlen' : p + 1 + (c' :: w).length = p + 2 + w.length := by
                rw [List.length_cons]
                omega
              rw [hlen'] at hnull ⊢
              rw [openAfter, hgoes']
              rw [List.length_cons] at hn
              exact (ih (by omega) (fun x hx ↦ hrest x (List.mem_cons_of_mem c' hx)) hw.2 hnull
                .inside).head hreach
          rcases (goesOn_iff c).mp hgoes with rfl | ⟨hlo, hhi⟩ | rfl | rfl | rfl | rfl
          · exact (hnext .inside).head (reaches_left hc)
          · by_cases hzero : c = chr '0' ∧ has flags ZEROPAD = false
            · exact (hnext .inside).head
                (reaches_zero (hc.trans hzero.1) hzero.2)
            · subst hc
              refine (hnext .inside).head (reaches_digit hlo hhi fun h0 ↦ ?_)
              by_contra hno
              exact hzero ⟨h0, by simpa using hno⟩
          · have hstep : Reaches m slot (.at m p ap flags width out) _ := reaches_h hc
            split_ifs at hstep with hsame
            · exact hdouble (by rw [hsame]; decide) hstep rfl
            · exact (hnext .inside).head hstep
          · have hstep : Reaches m slot (.at m p ap flags width out) _ := reaches_l hc
            split_ifs at hstep with hsame
            · exact hdouble (by rw [hsame]; decide) hstep rfl
            · exact (hnext .inside).head hstep
          · exact (hnext .inside).head (reaches_q hc)
          · exact (hnext .inside).head (reaches_z hc)
        · have hends : goesOn c = false := by simpa using hgoes
          rw [hends]
          obtain ⟨ap', out', hstep⟩ : ∃ ap' out', Reaches m slot (.at m p ap flags width out)
              ⟨p + 1, ap', .text, out'⟩ := reaches_last (hc ▸ hends)
          exact (hnext .text).head hstep

theorem step_fmt_le {s t : WriteF} (h : step m slot s = some t) : s.fmt ≤ t.fmt := by
  have hswitch : ∀ {flags width : U32} {ch : Byte}, switch m slot s flags width ch = some t →
      s.fmt ≤ t.fmt := by
    intro flags width ch hs
    rw [switch] at hs
    split_ifs at hs
    all_goals first
      | cases hs
        first | exact le_rfl | exact Nat.le_succ _
      | obtain ⟨str, -, rfl⟩ := Option.map_eq_some_iff.mp hs
        exact le_rfl
  rw [step] at h
  split at h
  · dsimp only at h
    split_ifs at h <;> cases h <;> first | exact le_rfl | exact Nat.le_succ _
  · cases h
    exact Nat.le_succ _
  · exact hswitch h
  · dsimp only at h
    split_ifs at h <;> cases h <;> exact Nat.le_succ _
  · cases h

/-- Where it comes to on its way, it comes to the same end from. -/
theorem writeF_reaches {s t u : WriteF} (h : Reaches m slot s t) {labels : ℕ}
    (hs : writeF m slot labels s = some u) : ∃ labels, writeF m slot labels t = some u := by
  induction h with
  | refl => exact ⟨labels, hs⟩
  | @tail t t' _ hstep ih =>
    obtain ⟨k, hk⟩ := ih
    cases k with
    | zero => cases hk
    | succ k =>
      rw [writeF] at hk
      cases hmode : t.mode with
      | done =>
        rw [step, hmode] at hstep
        cases hstep
      | _ =>
        rw [hmode] at hk
        have hk : (step m slot t).bind (writeF m slot k) = some u := hk
        rw [hstep] at hk
        exact ⟨k, hk⟩

theorem writeF_fmt_le {labels : ℕ} : ∀ {s u : WriteF}, writeF m slot labels s = some u →
    s.fmt ≤ u.fmt := by
  induction labels with
  | zero => exact fun h ↦ (nomatch h)
  | succ labels ih =>
    intro s u h
    rw [writeF] at h
    split at h
    · cases h
      exact le_rfl
    · obtain ⟨t, ht, hu⟩ := Option.bind_eq_some_iff.mp h
      exact (step_fmt_le ht).trans (ih hu)

/-- **Where `write_f` ends**: at the null of the format, unless a directive is open there, and past
it if one is. -/
theorem writeF_ends (h : StringAt m p w) :
    (openAfter false w = false →
      ∃ labels s, writeF m slot labels (.start p) = some s ∧ s.fmt = p + w.length) ∧
    (openAfter false w = true →
      ∀ labels s, writeF m slot labels (.start p) = some s → p + w.length < s.fmt) := by
  have hcomes : ComesTo m slot (.start p) (p + w.length) (openAfter false w) :=
    comesTo_of_spells le_rfl h.ne_zero (spells_of_stringAt h) h.null .text
  refine ⟨fun hclosed ↦ ?_, fun hopen labels s hs ↦ ?_⟩
  · rw [hclosed] at hcomes
    obtain ⟨ap, out, hreach⟩ := hcomes
    have hend : step m slot ⟨p + w.length, ap, .text, out⟩ =
        some ⟨p + w.length, ap, .done, out⟩ := by
      show (if m _ ≠ 0 ∧ m _ ≠ chr '%' then _ else _) = _
      rw [h.null, if_neg (by decide), if_pos rfl]
    have hdone : writeF m slot 1 ⟨p + w.length, ap, .done, out⟩ =
        some ⟨p + w.length, ap, .done, out⟩ := rfl
    obtain ⟨labels, hlabels⟩ := writeF_of_reaches (hreach.tail hend) hdone
    exact ⟨labels, _, hlabels, rfl⟩
  · rw [hopen] at hcomes
    obtain ⟨ap, flags, width, out, hreach⟩ := hcomes
    obtain ⟨ap', out', hlast⟩ : ∃ ap' out', Reaches m slot
        (.at m (p + w.length) ap flags width out) ⟨p + w.length + 1, ap', .text, out'⟩ :=
      reaches_last (by rw [h.null]; decide)
    obtain ⟨labels', hlabels⟩ := writeF_reaches (hreach.trans hlast) hs
    exact writeF_fmt_le hlabels

/-- A percent sign at the end is left open. -/
theorem writeF_ends_percent : openAfter false [chr '5', chr '%'] = true ∧ ∀ labels s,
    writeF (fun a ↦ [chr '5', chr '%'].getD a 0) (fun _ ↦ 0) labels (.start 0) = some s →
      2 < s.fmt := by
  refine ⟨by decide, (writeF_ends (p := 0) (w := [chr '5', chr '%']) ⟨fun i hi ↦ ?_,
    by decide, by decide⟩).2 (by decide)⟩
  rw [Nat.zero_add, List.getD_eq_getElem _ _ hi]

end Log
end Borrrdex
