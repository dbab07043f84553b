import Borrrdex.Kstd.Itoa
import Borrrdex.Kstd.Strtok
import Borrrdex.Lib.Lines

/-!
# The symbols of the kernel

`load_symbols` reads a file of `nm` lines in pieces of 4096 bytes into a buffer on its stack, cuts
each piece into lines with `strtok_r`, and goes on in the file behind the last line that it has
found.

Nothing ends the buffer: `strtok_r` stops at a null only, so that the buffer is left behind unless
there is one among the bytes that are read, or in what was in the buffer before.  And `strtok_r`
skips the newlines in front of a line, but `buffer_pos` is where they begin, so that a line behind
an empty one begins with a newline for everything that looks at it, and is not taken for a symbol.

The model stops where something outside of the buffer would be read.
-/

set_option autoImplicit false

namespace Borrrdex

namespace Symbols

open Lines

/-- `kernel_symbol`. -/
structure KernelSymbol where
  address : U64
  mangledName : List Byte
deriving DecidableEq

/-- The character that ends a line. -/
def nl : Byte := 0x0A

/-- Where a loop stops that goes on while the bytes pass a test. -/
def stop (test : Byte → Bool) (buf : List Byte) (i : ℕ) : ℕ :=
  i + ((buf.drop i).takeWhile test).length

/-- `strtok_r(s, "\n", &m)`, if it stays in the buffer. -/
def tokenize (s m : Option ℕ) (buf : List Byte) : Option Strtok :=
  match s <|> m with
  | none => some (strtokR s m [nl] buf)
  | some start =>
    let tok := stop (fun c ↦ c != 0 && c == nl) buf start
    if stop (fun c ↦ c != 0 && c != nl) buf tok < buf.length then some (strtokR s m [nl] buf)
    else none

/-- `strnlen(buffer + i, maxlen)`, if it stays in the buffer. -/
def strnlenIn (buf : List Byte) (i maxlen : ℕ) : Option ℕ :=
  let n := min (cString (buf.drop i)).length maxlen
  if i + n < buf.length then some n else none

/-- `strchr(buffer + i, c)`, from `i` on, if it stays in the buffer. -/
def strchrIn (buf : List Byte) (i : ℕ) (c : Byte) : Option (Option ℕ) :=
  if stop (fun d ↦ d != 0 && d != c) buf i < buf.length then some (strchr (buf.drop i) c) else none

/-- The symbol of a line, if it is one, and if all that is read is in the buffer. -/
def readLine (buf : List Byte) (line : ℕ) : Option (Option KernelSymbol) :=
  match strnlenIn buf line 1024 with
  | none => none
  | some n =>
    if n < 8 * 2 + 3 then some none
    else
      match strchrIn buf line 0x20 with
      | none => none
      | some none => some none
      | some (some addressEnd) =>
        let pointer := hexToPointer line (8 * 2) fun i ↦ buf.getD i 0
        if pointer.1 ≠ 0 then some none
        else
          -- `strdup(address_end + 3)`
          let name := line + addressEnd + 3
          match strnlenIn buf name 1024 with
          | none => none
          | some n => some (some ⟨pointer.2, (buf.drop name).take n⟩)

/-- What is inserted into `symbol_map`, each symbol with the position of its line in the file. -/
abbrev Inserted := List (ℕ × KernelSymbol)

/-- `while(saved)`, for fewer than so many lines, with the position `off` of the buffer in the file:
the buffer, `buffer_pos` and the symbols behind it. -/
def lineLoop (off : ℕ) : ℕ → List Byte → ℕ → Option ℕ → Inserted →
    Option (List Byte × ℕ × Inserted)
  | 0, _, _, _, _ => none
  | _ + 1, buf, bufferPos, none, syms => some (buf, bufferPos, syms)
  | lines + 1, buf, bufferPos, some saved, syms =>
    let line := bufferPos
    let buf := buf.set (saved - 1) 0
    match readLine buf line with
    | none => none
    | some sym =>
      let syms := syms ++ (sym.map fun s ↦ (off + line, s)).toList
      let bufferPos := bufferPos + (saved - line)
      match tokenize none (some saved) buf with
      | none => none
      | some t => lineLoop off lines t.buf bufferPos t.saved syms

/-- One piece of the file that has been read, from the first `strtok_r` on. -/
def readPiece (lines off : ℕ) (buf : List Byte) (syms : Inserted) :
    Option (List Byte × ℕ × Inserted) :=
  match tokenize (some 0) none buf with
  | none => none
  | some t => lineLoop off lines t.buf 0 t.saved syms

/-- The loop on the pieces of the file, for fewer than so many of them, with fewer than so many
lines each. -/
def pieceLoop (file : List Byte) (lines : ℕ) : ℕ → List Byte → ℕ → Inserted → Option Inserted
  | 0, _, _, _ => none
  | pieces + 1, buf, off, syms =>
    -- `fs::read(node, off, buffer_size, buffer)`
    let data := (file.drop off).take 4096
    if data.length = 0 then some syms
    else
      match readPiece lines off (data ++ buf.drop data.length) syms with
      | none => none
      | some (buf, bufferPos, syms) =>
        if bufferPos = 0 then some syms else pieceLoop file lines pieces buf (off + bufferPos) syms

/-- `load_symbols`, with what is in the buffer before. -/
def loadSymbols (file buf : List Byte) (lines pieces : ℕ) : Option Inserted :=
  pieceLoop file lines pieces buf 0 []

/-! ## What should be loaded -/

/-- A line as `nm` writes it: an address of 16 digits, a type and a name, with spaces between. -/
structure WellFormed (l : List Byte) : Prop where
  length : 19 ≤ l.length
  digits : ∀ c ∈ l.take 16, IsDigit 16 c
  space : l.getD 16 0 = 0x20
  space' : l.getD 18 0 = 0x20
  ne_zero : ∀ c ∈ l, c ≠ 0

instance (base : ℕ) (c : Byte) : Decidable (IsDigit base c) :=
  inferInstanceAs (Decidable (∃ d < base, digitValue c = some d))

instance (l : List Byte) : Decidable (WellFormed l) :=
  decidable_of_iff (19 ≤ l.length ∧ (∀ c ∈ l.take 16, IsDigit 16 c) ∧ l.getD 16 0 = 0x20 ∧
      l.getD 18 0 = 0x20 ∧ ∀ c ∈ l, c ≠ 0)
    ⟨fun ⟨h₁, h₂, h₃, h₄, h₅⟩ ↦ ⟨h₁, h₂, h₃, h₄, h₅⟩,
      fun h ↦ ⟨h.length, h.digits, h.space, h.space', h.ne_zero⟩⟩

/-- The symbol of such a line. -/
def symbolOf (l : List Byte) : KernelSymbol where
  address := BitVec.ofNat 64 (value 16 (l.take 16))
  mangledName := l.drop 19

/-- The symbols of a file, in the order of its lines. -/
def symbols (lines : List (List Byte)) : Inserted :=
  ((placed 0 lines).filter fun p ↦ decide (WellFormed p.2)).map fun p ↦ (p.1, symbolOf p.2)

/-- They are loaded, and nothing outside of the buffer is accessed. -/
def Loads (lines : List (List Byte)) (buf : List Byte) : Prop :=
  ∃ n, loadSymbols (joined nl lines) buf n n = some (symbols lines)

/-! ## The condition -/

/-- The lines that are looked at as they are: those that are not empty and do not follow an
empty one. -/
def looked : Bool → ℕ → List (List Byte) → List (ℕ × List Byte)
  | _, _, [] => []
  | behindEmpty, o, l :: ls =>
    if l = [] then looked true (o + 1) ls
    else if behindEmpty then looked false (o + l.length + 1) ls
    else (o, l) :: looked false (o + l.length + 1) ls

theorem looked_sublist (b : Bool) (o : ℕ) (ls : List (List Byte)) :
    (looked b o ls).Sublist (placed o ls) := by
  induction ls generalizing b o with
  | nil => exact List.Sublist.slnil
  | cons l ls ih =>
    rw [looked, placed]
    split
    · next hl =>
      rw [hl]
      exact (ih _ _).cons _
    · split
      · exact (ih _ _).cons _
      · exact (ih _ _).cons_cons _

/-- The tests of a line: it is long enough, there is a space in it, and `hex_to_pointer` takes what
is in front. -/
structure Accepted (l : List Byte) : Prop where
  length : 19 ≤ l.length
  space : (strchr l 0x20).isSome = true
  pointer : (hexToPointer 0 16 fun i ↦ l.getD i 0).1 = 0

instance (l : List Byte) : Decidable (Accepted l) :=
  decidable_of_iff (19 ≤ l.length ∧ (strchr l 0x20).isSome = true ∧
      (hexToPointer 0 16 fun i ↦ l.getD i 0).1 = 0)
    ⟨fun ⟨h₁, h₂, h₃⟩ ↦ ⟨h₁, h₂, h₃⟩, fun h ↦ ⟨h.length, h.space, h.pointer⟩⟩

/-- What is in the buffer when the file has been read for the first time. -/
def firstPiece (file buf : List Byte) : List Byte :=
  file.take 4096 ++ buf.drop (file.take 4096).length

/-- There is a null in the buffer then, and of the lines before it that are looked at, those that
pass the tests are the well-formed lines of the file. -/
def Suits (lines : List (List Byte)) (buf : List Byte) : Prop :=
  ∃ ls tail rest, firstPiece (joined nl lines) buf = joined nl ls ++ (tail ++ 0 :: rest) ∧
    (∀ l ∈ ls, 0 ∉ l ∧ nl ∉ l) ∧ (0 ∉ tail ∧ nl ∉ tail) ∧
    (∀ p ∈ placed 0 lines, WellFormed p.2 → p ∈ looked false 0 ls) ∧
    ∀ p ∈ looked false 0 ls, Accepted p.2 → WellFormed p.2 ∧ p ∈ placed 0 lines

/-! ## `strtok_r` -/

theorem stop_eq {test : Byte → Bool} {buf a b : List Byte} {i : ℕ} (h : buf.drop i = a ++ b)
    (ha : ∀ c ∈ a, test c = true) (hb : ∀ c ∈ b.head?, test c = false) :
    stop test buf i = i + a.length := by
  have hnone : b.takeWhile test = [] := by
    cases b with
    | nil => rfl
    | cons c b => exact List.takeWhile_cons_of_neg (by rw [hb c rfl]; decide)
  rw [stop, h, List.takeWhile_append_of_pos ha, hnone, List.append_nil]

/-- `strtok_r` with the only delimiter, by where its loops stop. -/
theorem strtokR_newline {s m : Option ℕ} {start : ℕ} (h : (s <|> m) = some start)
    (buf : List Byte) : strtokR s m [nl] buf =
      let tok := stop (fun c ↦ c != 0 && c == nl) buf start
      let p := stop (fun c ↦ c != 0 && c != nl) buf tok
      let token := if p = tok then none else some tok
      if buf.getD p 0 ≠ 0 then { token := token, saved := some (p + 1), buf := buf.set p 0 }
      else { token := token, saved := none, buf := buf } := by
  have hskip : (fun c : Byte ↦ c != 0 && (strchr [nl] c).isSome) =
      fun c ↦ c != 0 && c == nl := funext (by decide +kernel)
  have hrun : (fun c : Byte ↦ c != 0 && (strchr [nl] c).isNone) =
      fun c ↦ c != 0 && c != nl := funext (by decide +kernel)
  rw [strtokR, h]
  dsimp only
  rw [hskip, hrun]
  rfl

section Tokenize

variable {s m : Option ℕ} {start j : ℕ} {buf w rest : List Byte}

/-- What one call sees: newlines, a run of other characters, and what ends it. -/
structure Sees (buf : List Byte) (start j : ℕ) (w rest : List Byte) : Prop where
  drop : buf.drop start = List.replicate j nl ++ (w ++ rest)
  run : ∀ c ∈ w, c ≠ 0 ∧ c ≠ nl
  behind : ∀ c ∈ rest.head?, c = 0 ∨ c = nl ∧ w ≠ []

theorem Sees.stop_skip (h : Sees buf start j w rest) :
    stop (fun c ↦ c != 0 && c == nl) buf start = start + j := by
  rw [stop_eq h.drop, List.length_replicate]
  · intro c hc
    rw [List.eq_of_mem_replicate hc]
    decide
  · intro c hc
    have hne : c = 0 ∨ c ≠ nl := by
      cases w with
      | nil => exact (h.behind c hc).imp_right fun hnl ↦ absurd rfl hnl.2
      | cons d w =>
        obtain rfl := Option.some.inj hc
        exact .inr (h.run d List.mem_cons_self).2
    rcases hne with rfl | hne
    · rfl
    · rw [beq_eq_false_iff_ne.mpr hne, Bool.and_false]

theorem Sees.stop_run (h : Sees buf start j w rest) :
    stop (fun c ↦ c != 0 && c != nl) buf (start + j) = start + j + w.length := by
  have hdrop : buf.drop (start + j) = w ++ rest := by
    rw [← List.drop_drop, h.drop]
    exact List.drop_left' List.length_replicate
  refine stop_eq hdrop (fun c hc ↦ ?_) fun c hc ↦ ?_
  · obtain ⟨hzero, hnl⟩ := h.run c hc
    rw [bne_iff_ne.mpr hzero, bne_iff_ne.mpr hnl, Bool.and_self]
  · rcases h.behind c hc with rfl | ⟨rfl, -⟩
    · rfl
    · decide

theorem Sees.getElem? (h : Sees buf start j w rest) :
    buf[start + j + w.length]? = rest.head? := by
  have hdrop : buf.drop (start + j + w.length) = rest := by
    rw [← List.drop_drop, ← List.drop_drop, h.drop, List.drop_left' List.length_replicate,
      List.drop_left]
  rw [← hdrop, List.head?_drop]

/-- A newline behind the run is replaced, and the next call goes on behind it. -/
theorem Sees.tokenize_newline (h : Sees buf start j w (nl :: rest)) (hs : (s <|> m) = some start) :
    ∃ token, tokenize s m buf = some
      { token := token
        saved := some (start + j + w.length + 1)
        buf := buf.set (start + j + w.length) 0 } := by
  have hget := h.getElem?
  have hlt := (List.getElem?_eq_some_iff.mp hget).1
  have hne : buf.getD (start + j + w.length) 0 ≠ 0 := by
    rw [List.getD_eq_getElem?_getD, hget]
    change nl ≠ 0
    decide
  refine ⟨if start + j + w.length = start + j then none else some (start + j), ?_⟩
  rw [tokenize, hs]
  dsimp only
  rw [strtokR_newline hs]
  dsimp only
  rw [h.stop_skip, h.stop_run, if_pos hlt, if_pos hne]

/-- At a null there is nothing more. -/
theorem Sees.tokenize_null (h : Sees buf start j w (0 :: rest)) (hs : (s <|> m) = some start) :
    ∃ token, tokenize s m buf = some { token := token, saved := none, buf := buf } := by
  have hget := h.getElem?
  have hlt := (List.getElem?_eq_some_iff.mp hget).1
  have heq : buf.getD (start + j + w.length) 0 = 0 := by
    rw [List.getD_eq_getElem?_getD, hget]
    rfl
  refine ⟨if start + j + w.length = start + j then none else some (start + j), ?_⟩
  rw [tokenize, hs]
  dsimp only
  rw [strtokR_newline hs]
  dsimp only
  rw [h.stop_skip, h.stop_run, if_pos hlt, if_neg (not_not.mpr heq)]

/-- Without either the buffer is left. -/
theorem Sees.tokenize_nil (h : Sees buf start j w []) (hs : (s <|> m) = some start) :
    tokenize s m buf = none := by
  have hget := h.getElem?
  have hge := List.getElem?_eq_none_iff.mp hget
  rw [tokenize, hs]
  dsimp only
  rw [h.stop_skip, h.stop_run, if_neg (not_lt.mpr hge)]

end Tokenize

/-! ## One line -/

section Line

variable {buf c r : List Byte} {s : ℕ}

/-- A null stops a loop. -/
theorem length_takeWhile_le {test : Byte → Bool} (htest : test 0 = false) (c r : List Byte) :
    ((c ++ 0 :: r).takeWhile test).length ≤ c.length := by
  induction c with
  | nil =>
    rw [List.nil_append, List.takeWhile_cons_of_neg (by rw [htest]; decide)]
  | cons d c ih =>
    rw [List.cons_append, List.takeWhile_cons]
    split
    · exact Nat.succ_le_succ ih
    · exact Nat.zero_le _

theorem lt_length_of_drop (h : buf.drop s = c ++ 0 :: r) : s + c.length < buf.length := by
  have hlen := congrArg List.length h
  rw [List.length_drop, List.length_append, List.length_cons] at hlen
  omega

theorem getD_of_drop (h : buf.drop s = c ++ 0 :: r) {i : ℕ} (hi : i ≤ c.length) :
    buf.getD (s + i) 0 = c.getD i 0 := by
  rw [List.getD_eq_getElem?_getD, List.getD_eq_getElem?_getD, ← List.getElem?_drop, h]
  rcases hi.eq_or_lt with rfl | hlt
  · rw [List.getElem?_append_right (Nat.le_refl _), Nat.sub_self,
      List.getElem?_eq_none (Nat.le_refl _)]
    rfl
  · rw [List.getElem?_append_left hlt]

theorem strnlenIn_eq (h : buf.drop s = c ++ 0 :: r) (hc : 0 ∉ c) (maxlen : ℕ) :
    strnlenIn buf s maxlen = some (min c.length maxlen) := by
  have hlt := lt_length_of_drop h
  have hstring : cString (buf.drop s) = c := by
    rw [h]
    exact cString_append_cons_zero (fun x hx hzero ↦ hc (hzero ▸ hx)) r
  rw [strnlenIn, hstring]
  exact if_pos (by omega)

theorem strchr_append (hc : 0 ∉ c) (r : List Byte) (d : Byte) :
    strchr (c ++ 0 :: r) d = strchr c d := by
  have hne : ∀ x ∈ c, x ≠ 0 := fun x hx hzero ↦ hc (hzero ▸ hx)
  rw [strchr, strchr, cString_append_cons_zero hne, cString_eq_self hne]

theorem strchrIn_eq (h : buf.drop s = c ++ 0 :: r) (hc : 0 ∉ c) (d : Byte) :
    strchrIn buf s d = some (strchr c d) := by
  have hlt := lt_length_of_drop h
  have hle : ((buf.drop s).takeWhile fun x ↦ x != 0 && x != d).length ≤ c.length := by
    rw [h]
    exact length_takeWhile_le rfl c r
  rw [strchrIn, stop, if_pos (by omega), h, strchr_append hc]

/-- What becomes of a line that a null ends. -/
theorem readLine_eq (h : buf.drop s = c ++ 0 :: r) (hc : 0 ∉ c) :
    readLine buf s =
      if c.length < 19 then some none
      else
        match strchr c 0x20 with
        | none => some none
        | some e =>
          let pointer := hexToPointer 0 16 fun i ↦ c.getD i 0
          if pointer.1 ≠ 0 then some none
          else
            match strnlenIn buf (s + e + 3) 1024 with
            | none => none
            | some n => some (some ⟨pointer.2, (buf.drop (s + e + 3)).take n⟩) := by
  have hpointer : hexToPointer s 16 (fun i ↦ buf.getD i 0) =
      hexToPointer 0 16 fun i ↦ c.getD i 0 := by
    refine hexLoop_congr (n := c.length) (fun i hi ↦ ?_) ?_ 16 0
    · rw [Nat.zero_add]
      exact getD_of_drop h hi
    · rw [getD_of_drop h (Nat.le_refl _), List.getD_eq_getElem?_getD,
        List.getElem?_eq_none (Nat.le_refl _)]
      rfl
  rw [readLine, strnlenIn_eq h hc, strchrIn_eq h hc]
  dsimp only
  rw [hpointer]
  by_cases hlen : c.length < 19
  · rw [if_pos hlen, if_pos (by omega)]
  · rw [if_neg hlen, if_neg (by omega)]
    cases strchr c 0x20 <;> rfl

theorem readLine_of_not_accepted (h : buf.drop s = c ++ 0 :: r) (hc : 0 ∉ c)
    (hnot : ¬ Accepted c) : readLine buf s = some none := by
  rw [readLine_eq h hc]
  split
  · rfl
  · next hlen =>
    cases hspace : strchr c 0x20 with
    | none => rfl
    | some e =>
      refine if_pos fun hpointer ↦ hnot ⟨not_lt.mp hlen, ?_, hpointer⟩
      rw [hspace]
      rfl

theorem readLine_of_accepted (h : buf.drop s = c ++ 0 :: r) (hc : 0 ∉ c) (hacc : Accepted c) :
    readLine buf s = none ∨ ∃ sym, readLine buf s = some (some sym) := by
  obtain ⟨e, he⟩ := Option.isSome_iff_exists.mp hacc.space
  rw [readLine_eq h hc, if_neg (not_lt.mpr hacc.length), he]
  dsimp only
  rw [if_neg (not_not.mpr hacc.pointer)]
  cases strnlenIn buf (s + e + 3) 1024 with
  | none => exact .inl rfl
  | some n => exact .inr ⟨_, rfl⟩

/-- The first space of a well-formed line. -/
theorem WellFormed.strchr_eq {l : List Byte} (hl : WellFormed l) : strchr l 0x20 = some 16 := by
  have hlen := hl.length
  have hidx : l.findIdx? (· == 0x20) = some 16 := by
    rw [List.findIdx?_eq_some_iff_getElem]
    refine ⟨by omega, ?_, fun j hj ↦ ?_⟩
    · have hspace := hl.space
      rw [List.getD_eq_getElem?_getD, List.getElem?_eq_getElem (by omega),
        Option.getD_some] at hspace
      rw [hspace]
      rfl
    · have hmem : l[j] ∈ l.take 16 :=
        List.mem_iff_getElem.mpr ⟨j, by rw [List.length_take]; omega, List.getElem_take⟩
      have hdigit := hl.digits _ hmem
      intro hspace
      rw [beq_iff_eq.mp hspace] at hdigit
      exact absurd hdigit (by decide)
  rw [strchr, cString_eq_self hl.ne_zero, hidx]

theorem WellFormed.pointer_eq (hc : WellFormed c) :
    (hexToPointer 0 16 fun i ↦ c.getD i 0).1 = 0 ∧
      (hexToPointer 0 16 fun i ↦ c.getD i 0).2 = (symbolOf c).address := by
  have hlen := hc.length
  have hsixteen : (c.take 16).length = 16 := by
    rw [List.length_take]
    omega
  have hzero : (0 : U64).toNat = 0 := rfl
  have hchar : ∀ i, (h : i < (c.take 16).length) → c.getD (0 + i) 0 =
    (c.take 16)[i] := fun i hi ↦ by
    rw [Nat.zero_add, List.getElem_take, List.getD_eq_getElem?_getD,
      List.getElem?_eq_getElem (by omega), Option.getD_some]
  have hroom : ((0 : U64).toNat + 1) * 16 ^ (c.take 16).length ≤ 2 ^ 64 := by
    rw [hsixteen, hzero]
    decide
  obtain ⟨hok, hvalue⟩ := hexLoop_eq (m := fun i ↦ c.getD i 0) hc.digits hchar
    (fun hlt ↦ absurd hsixteen hlt.ne) hsixteen.le hroom
  refine ⟨hok, BitVec.eq_of_toNat_eq ?_⟩
  have hlt := (hexLoop (fun i ↦ c.getD i 0) 16 0 0).2.isLt
  rw [hvalue, hzero, Nat.zero_mul, Nat.zero_add] at hlt
  rw [hexToPointer, hvalue, symbolOf, BitVec.toNat_ofNat, Nat.mod_eq_of_lt hlt, hzero,
    Nat.zero_mul, Nat.zero_add]

theorem WellFormed.accepted (hc : WellFormed c) : Accepted c where
  length := hc.length
  space := by
    rw [hc.strchr_eq]
    rfl
  pointer := hc.pointer_eq.1

/-- **The symbol of a well-formed line.** -/
theorem readLine_of_wellFormed (h : buf.drop s = c ++ 0 :: r) (hc : WellFormed c)
    (hlt : c.length < 1024) : readLine buf s = some (some (symbolOf c)) := by
  have hzero : 0 ∉ c := fun hmem ↦ hc.ne_zero 0 hmem rfl
  have hlen := hc.length
  obtain ⟨hok, haddress⟩ := hc.pointer_eq
  have hname : buf.drop (s + 16 + 3) = c.drop 19 ++ 0 :: r := by
    rw [Nat.add_assoc, ← List.drop_drop, h, List.drop_append_of_le_length hlen]
  have hmin : min (c.drop 19).length 1024 = (c.drop 19).length := by
    rw [List.length_drop]
    omega
  rw [readLine_eq h hzero, if_neg (not_lt.mpr hlen), hc.strchr_eq]
  dsimp only
  rw [if_neg (not_not.mpr hok), strnlenIn_eq hname (fun hmem ↦ hzero (List.mem_of_mem_drop hmem)),
    hmin, hname]
  dsimp only
  rw [List.take_left, haddress]
  rfl

/-- A line that begins with a newline is none. -/
theorem not_accepted_newline (c : List Byte) : ¬ Accepted (nl :: c) := fun h ↦ by
  have hpointer : hexToPointer 0 16 (fun i ↦ (nl :: c).getD i 0) = (1, 0) := rfl
  have hok := h.pointer
  rw [hpointer] at hok
  exact absurd hok (by decide)

end Line

/-! ## The lines of a piece -/

/-- A call of `strtok_r`, and the loop on what it finds. -/
def goOn (off lines : ℕ) (s m : Option ℕ) (buf : List Byte) (bufferPos : ℕ) (syms : Inserted) :
    Option (List Byte × ℕ × Inserted) :=
  match tokenize s m buf with
  | none => none
  | some t => lineLoop off lines t.buf bufferPos t.saved syms

/-- The lines from `start` on are still to be looked at, behind `j` newlines.  Before them no line
ends in a newline any more. -/
structure At (buf : List Byte) (start j : ℕ) (ls : List (List Byte)) (tail after : List Byte) :
    Prop where
  drop : buf.drop start = List.replicate j nl ++ (joined nl ls ++ (tail ++ after))
  lines : ∀ l ∈ ls, 0 ∉ l ∧ nl ∉ l
  tail : 0 ∉ tail ∧ nl ∉ tail
  null : start = 0 ∨ buf[start - 1]? = some 0
  cut : ∀ i, i + 1 < start → buf[i + 1]? = some nl → buf[i]? = some nl ∨ buf[i]? = some 0

section Loop

variable {buf l tail after : List Byte} {ls : List (List Byte)} {start j off : ℕ} {s m : Option ℕ}
  {syms : Inserted}

theorem run_of_not_mem {w : List Byte} (hw : 0 ∉ w ∧ nl ∉ w) : ∀ c ∈ w, c ≠ 0 ∧ c ≠ nl :=
  fun _ hc ↦ ⟨fun h ↦ hw.1 (h ▸ hc), fun h ↦ hw.2 (h ▸ hc)⟩

theorem At.sees_tail (h : At buf start j [] tail after)
    (hafter : ∀ c ∈ after.head?, c = 0) : Sees buf start j tail after where
  drop := h.drop
  run := run_of_not_mem h.tail
  behind c hc := .inl (hafter c hc)

theorem At.sees_line (h : At buf start j (l :: ls) tail after) (hl : l ≠ []) :
    Sees buf start j l (nl :: (joined nl ls ++ (tail ++ after))) where
  drop := by
    rw [h.drop, joined_cons, List.append_assoc, List.cons_append]
  run := run_of_not_mem (h.lines l List.mem_cons_self)
  behind c hc := .inr ⟨(Option.some.inj hc).symm, hl⟩

/-- An empty line is one more newline. -/
theorem At.empty (h : At buf start j ([] :: ls) tail after) :
    At buf start (j + 1) ls tail after where
  drop := by
    rw [h.drop, joined_cons, List.replicate_succ']
    simp only [List.nil_append, List.cons_append, List.append_assoc]
  lines l hl := h.lines l (List.mem_cons_of_mem _ hl)
  tail := h.tail
  null := h.null
  cut := h.cut

/-- What a line becomes. -/
theorem At.drop_set (h : At buf start j (l :: ls) tail after) :
    (buf.set (start + j + l.length) 0).drop start =
      (List.replicate j nl ++ l) ++ 0 :: (joined nl ls ++ (tail ++ after)) := by
  have hlen : (List.replicate j nl ++ l).length = j + l.length := by
    rw [List.length_append, List.length_replicate]
  rw [List.drop_set, if_neg (by omega), h.drop, joined_cons, List.append_assoc, List.cons_append,
    ← List.append_assoc, List.set_append_right _ _ (by omega), hlen,
    show start + j + l.length - start - (j + l.length) = 0 by omega, List.set_cons_zero]

theorem At.newline (h : At buf start j ls tail after) {k : ℕ} (hk : k < j) :
    buf[start + k]? = some nl := by
  rw [← List.getElem?_drop, h.drop,
    List.getElem?_append_left (by rw [List.length_replicate]; exact hk),
    List.getElem?_replicate_of_lt hk]

theorem At.not_newline (h : At buf start j (l :: ls) tail after) {k : ℕ} (hk : k < l.length) :
    buf[start + j + k]? ≠ some nl := by
  have hget : buf[start + j + k]? = some l[k] := by
    rw [Nat.add_assoc, ← List.getElem?_drop, h.drop, joined_cons,
      List.getElem?_append_right (by rw [List.length_replicate]; omega), List.length_replicate,
      Nat.add_sub_cancel_left, List.append_assoc, List.getElem?_append_left hk,
      List.getElem?_eq_getElem hk]
  intro hnl
  rw [hget] at hnl
  exact (h.lines l List.mem_cons_self).2 (Option.some.inj hnl ▸ List.getElem_mem hk)

/-- **Behind a line.** -/
theorem At.line (h : At buf start j (l :: ls) tail after) :
    At (buf.set (start + j + l.length) 0) (start + j + l.length + 1) 0 ls tail after where
  drop := by
    have hlen : (List.replicate j nl ++ l).length = j + l.length := by
      rw [List.length_append, List.length_replicate]
    rw [show start + j + l.length + 1 = start + (j + l.length) + 1 by omega, ← List.drop_drop,
      ← List.drop_drop, h.drop_set, List.drop_left' hlen]
    rfl
  lines l' hl' := h.lines l' (List.mem_cons_of_mem _ hl')
  tail := h.tail
  null := .inr (by
    have hlt := lt_length_of_drop h.drop_set
    rw [List.length_append, List.length_replicate, List.length_set] at hlt
    rw [Nat.add_sub_cancel]
    exact List.getElem?_set_self (by omega))
  cut i hi hnl := by
    have hne : i + 1 ≠ start + j + l.length := fun heq ↦ by
      have hlt := lt_length_of_drop h.drop_set
      rw [List.length_append, List.length_replicate, List.length_set] at hlt
      rw [heq, List.getElem?_set_self (by omega)] at hnl
      exact absurd hnl (by decide)
    rw [List.getElem?_set_ne (by omega)] at hnl ⊢
    rcases Nat.lt_trichotomy (i + 1) start with hlt | heq | hgt
    · exact h.cut i hlt hnl
    · -- the newline of the last line before
      refine .inr (h.null.resolve_left (by omega) ▸ ?_)
      rw [← heq, Nat.add_sub_cancel]
    · obtain ⟨k, rfl⟩ := Nat.exists_eq_add_of_le (Nat.le_of_lt_succ hgt)
      rcases Nat.lt_or_ge (k + 1) j with hin | hout
      · exact .inl (h.newline (by omega))
      · refine absurd hnl ?_
        rw [show start + k + 1 = start + j + (k + 1 - j) by omega]
        exact h.not_newline (by omega)

/-- One round of the loop. -/
theorem At.goOn_line (h : At buf start j (l :: ls) tail after) (hl : l ≠ [])
    (hs : (s <|> m) = some start) (n : ℕ) :
    goOn off (n + 1) s m buf start syms =
      match readLine (buf.set (start + j + l.length) 0) start with
      | none => none
      | some sym => goOn off n none (some (start + j + l.length + 1))
          (buf.set (start + j + l.length) 0) (start + j + l.length + 1)
          (syms ++ (sym.map fun s ↦ (off + start, s)).toList) := by
  obtain ⟨token, htoken⟩ := (h.sees_line hl).tokenize_newline hs
  have hpos : start + (start + j + l.length + 1 - start) = start + j + l.length + 1 := by omega
  rw [goOn, htoken]
  dsimp only
  rw [lineLoop, Nat.add_sub_cancel, List.set_set]
  dsimp only
  rw [hpos]
  rfl

/-- Without a null the buffer is left. -/
theorem At.goOn_eq_none (h : At buf start j ls tail []) (hs : (s <|> m) = some start) (n : ℕ) :
    goOn off n s m buf start syms = none := by
  induction ls generalizing buf start j s m syms n with
  | nil => rw [goOn, (h.sees_tail fun c hc ↦ nomatch hc).tokenize_nil hs]
  | cons l ls ih =>
    by_cases hl : l = []
    · rw [hl] at h
      exact ih h.empty hs n
    · cases n with
      | zero =>
        obtain ⟨token, htoken⟩ := (h.sees_line hl).tokenize_newline hs
        rw [goOn, htoken]
        rfl
      | succ n =>
        rw [h.goOn_line hl hs]
        cases readLine (buf.set (start + j + l.length) 0) start with
        | none => rfl
        | some sym => exact ih h.line rfl n

/-- The lines of a piece that pass the tests. -/
def candidates (j start : ℕ) (ls : List (List Byte)) : List (ℕ × List Byte) :=
  (looked (decide (0 < j)) (start + j) ls).filter fun p ↦ decide (Accepted p.2)

theorem candidates_empty (j start : ℕ) (ls : List (List Byte)) :
    candidates j start ([] :: ls) = candidates (j + 1) start ls := by
  rw [candidates, candidates, looked, if_pos rfl, decide_eq_true (Nat.succ_pos j), Nat.add_assoc]

theorem candidates_line (hl : l ≠ []) (j start : ℕ) (ls : List (List Byte)) :
    candidates j start (l :: ls) =
      (if j = 0 ∧ Accepted l then [(start, l)] else []) ++
        candidates 0 (start + j + l.length + 1) ls := by
  rw [candidates, candidates, looked, if_neg hl]
  by_cases hj : j = 0
  · subst hj
    rw [if_neg (by decide), List.filter_cons]
    by_cases hacc : Accepted l
    · rw [if_pos (decide_eq_true hacc), if_pos ⟨rfl, hacc⟩]
      rfl
    · rw [if_neg (by simpa using hacc), if_neg (fun h ↦ hacc h.2)]
      rfl
  · rw [if_pos (decide_eq_true (Nat.pos_of_ne_zero hj)), if_neg (fun h ↦ hj h.1)]
    rfl

theorem At.not_mem (h : At buf start j (l :: ls) tail after) : 0 ∉ List.replicate j nl ++ l := by
  intro hmem
  rcases List.mem_append.mp hmem with hzero | hzero
  · exact absurd (List.eq_of_mem_replicate hzero) (by decide)
  · exact (h.lines l List.mem_cons_self).1 hzero

/-- Behind newlines no line passes the tests. -/
theorem At.readLine_none (h : At buf start j (l :: ls) tail after) (hnot : ¬ (j = 0 ∧ Accepted l)) :
    readLine (buf.set (start + j + l.length) 0) start = some none := by
  refine readLine_of_not_accepted h.drop_set h.not_mem ?_
  cases j with
  | zero => exact fun hacc ↦ hnot ⟨rfl, hacc⟩
  | succ j => exact not_accepted_newline _

/-- What is left when the loop is done. -/
structure Done (buf buf' : List Byte) (start j : ℕ) (ls : List (List Byte))
    (tail after : List Byte) (pos : ℕ) : Prop where
  length : buf'.length = buf.length
  le : start ≤ pos
  drop : buf'.drop pos = buf.drop pos
  rest : ∃ j', At buf' pos j' [] tail after ∧ pos + j' = start + j + (joined nl ls).length

/-- **The loop inserts a symbol for each candidate.** -/
theorem At.goOn_spec {rest : List Byte} (h : At buf start j ls tail (0 :: rest))
    (hs : (s <|> m) = some start) {n : ℕ} {buf' : List Byte} {pos : ℕ} {syms' : Inserted}
    (hrun : goOn off n s m buf start syms = some (buf', pos, syms')) :
    Done buf buf' start j ls tail (0 :: rest) pos ∧ ∃ ins, syms' = syms ++ ins ∧
      ins.map (fun p ↦ p.1) = (candidates j start ls).map (fun p ↦ off + p.1) := by
  induction ls generalizing buf start j s m syms n with
  | nil =>
    obtain ⟨token, htoken⟩ := (h.sees_tail fun _ hc ↦ (Option.some.inj hc).symm).tokenize_null hs
    rw [goOn, htoken] at hrun
    cases n with
    | zero => cases hrun
    | succ n =>
      cases hrun
      exact ⟨⟨rfl, Nat.le_refl _, rfl, j, h, rfl⟩, [], (List.append_nil _).symm, rfl⟩
  | cons l ls ih =>
    by_cases hl : l = []
    · subst hl
      obtain ⟨⟨hlen, hle, hdrop, j', hat, hpos⟩, ins, hsyms, hins⟩ := ih h.empty hs hrun
      refine ⟨⟨hlen, hle, hdrop, j', hat, hpos.trans ?_⟩, ins, hsyms, ?_⟩
      · rw [joined_cons, List.length_append, List.length_cons, List.length_nil]
        omega
      · rw [candidates_empty]
        exact hins
    · cases n with
      | zero =>
        obtain ⟨token, htoken⟩ := (h.sees_line hl).tokenize_newline hs
        rw [goOn, htoken] at hrun
        cases hrun
      | succ n =>
        rw [h.goOn_line hl hs] at hrun
        cases hread : readLine (buf.set (start + j + l.length) 0) start with
        | none =>
          rw [hread] at hrun
          cases hrun
        | some sym =>
          rw [hread] at hrun
          obtain ⟨⟨hlen, hle, hdrop, j', hat, hpos⟩, ins, hsyms, hins⟩ := ih h.line rfl hrun
          refine ⟨⟨hlen.trans List.length_set, by omega, ?_, j', hat, hpos.trans ?_⟩, _,
            hsyms.trans (List.append_assoc ..), ?_⟩
          · rw [hdrop, List.drop_set_of_lt (by omega)]
          · rw [joined_cons, List.length_append, List.length_cons]
            omega
          · rw [List.map_append, candidates_line hl, List.map_append, hins]
            congr 1
            by_cases hacc : j = 0 ∧ Accepted l
            · rw [if_pos hacc]
              obtain ⟨rfl, hacc⟩ := hacc
              rcases readLine_of_accepted h.drop_set h.not_mem hacc with hnone | ⟨sym', hsome⟩
              · rw [hread] at hnone
                cases hnone
              · rw [hread] at hsome
                cases hsome
                rfl
            · rw [if_neg hacc]
              rw [h.readLine_none hacc] at hread
              cases hread
              rfl

/-- **If they all are well-formed, it gets to its end.** -/
theorem At.goOn_total {rest : List Byte} (h : At buf start j ls tail (0 :: rest))
    (hs : (s <|> m) = some start)
    (hgood : ∀ p ∈ candidates j start ls, WellFormed p.2 ∧ p.2.length < 1024) {n : ℕ}
    (hn : ls.length < n) : ∃ buf' pos, goOn off n s m buf start syms =
      some (buf', pos,
        syms ++ (candidates j start ls).map fun p ↦ (off + p.1, symbolOf p.2)) := by
  induction ls generalizing buf start j s m syms n with
  | nil =>
    obtain ⟨token, htoken⟩ := (h.sees_tail fun _ hc ↦ (Option.some.inj hc).symm).tokenize_null hs
    obtain ⟨n, rfl⟩ := Nat.exists_eq_add_of_lt hn
    refine ⟨buf, start, ?_⟩
    rw [goOn, htoken]
    exact congrArg (fun l ↦ some (buf, start, l)) (List.append_nil syms).symm
  | cons l ls ih =>
    rw [List.length_cons] at hn
    by_cases hl : l = []
    · subst hl
      rw [candidates_empty] at hgood ⊢
      exact ih h.empty hs hgood (by omega)
    · obtain ⟨n, rfl⟩ : ∃ k, n = k + 1 := ⟨n - 1, by omega⟩
      rw [candidates_line hl] at hgood ⊢
      rw [h.goOn_line hl hs]
      have hrest : ∀ p ∈ candidates 0 (start + j + l.length + 1) ls,
          WellFormed p.2 ∧ p.2.length < 1024 := fun p hp ↦
        hgood p (List.mem_append_right _ hp)
      by_cases hacc : j = 0 ∧ Accepted l
      · rw [if_pos hacc] at hgood ⊢
        obtain ⟨hwell, hlt⟩ := hgood (start, l)
          (List.mem_append_left _ (List.mem_singleton.mpr rfl))
        obtain ⟨rfl, -⟩ := hacc
        rw [readLine_of_wellFormed h.drop_set hwell hlt]
        obtain ⟨buf', pos, hrun⟩ := ih (s := none) (m := some _) h.line rfl hrest (n := n)
          (by omega)
        refine ⟨buf', pos, hrun.trans ?_⟩
        rw [List.append_assoc, List.map_append]
        rfl
      · rw [if_neg hacc, h.readLine_none hacc]
        obtain ⟨buf', pos, hrun⟩ := ih (s := none) (m := some _) h.line rfl hrest (n := n)
          (by omega)
        refine ⟨buf', pos, hrun.trans ?_⟩
        rw [List.append_assoc]
        rfl

/-! ## The end of a piece -/

theorem At.getElem?_null {rest : List Byte} (h : At buf start j [] tail (0 :: rest)) :
    buf[start + j + tail.length]? = some 0 :=
  (h.sees_tail fun _ hc ↦ (Option.some.inj hc).symm).getElem?

/-- Up to the null no other character is in front of a newline. -/
theorem At.before_newline {rest : List Byte} (h : At buf start j [] tail (0 :: rest)) {i : ℕ}
    (hi : i + 1 ≤ start + j + tail.length) (hnl : buf[i + 1]? = some nl) :
    buf[i]? = some nl ∨ buf[i]? = some 0 := by
  rcases Nat.lt_trichotomy (i + 1) start with hlt | heq | hgt
  · exact h.cut i hlt hnl
  · refine .inr (h.null.resolve_left (by omega) ▸ ?_)
    rw [← heq, Nat.add_sub_cancel]
  · obtain ⟨k, rfl⟩ := Nat.exists_eq_add_of_le (Nat.le_of_lt_succ hgt)
    rcases Nat.lt_or_ge (k + 1) j with hin | hout
    · exact .inl (h.newline (by omega))
    · -- the characters in front of the null are no newlines, nor is the null
      obtain ⟨d, hd⟩ : ∃ d, k + 1 = j + d := Nat.exists_eq_add_of_le hout
      have hdrop : buf[start + k + 1]? = (tail ++ 0 :: rest)[d]? := by
        rw [Nat.add_assoc, hd, ← List.getElem?_drop, h.drop,
          List.getElem?_append_right (by rw [List.length_replicate]; omega), List.length_replicate,
          Nat.add_sub_cancel_left]
        rfl
      rw [hdrop] at hnl
      rcases (show d ≤ tail.length by omega).eq_or_lt with rfl | hlt
      · rw [List.getElem?_append_right (Nat.le_refl _), Nat.sub_self] at hnl
        exact absurd (Option.some.inj hnl) (by decide)
      · rw [List.getElem?_append_left hlt] at hnl
        exact absurd (List.mem_of_getElem? hnl) h.tail.2

/-- From any position to the null a call finds no line. -/
theorem At.exists_sees {rest : List Byte} (h : At buf start j [] tail (0 :: rest)) {k : ℕ}
    (hk : k ≤ start + j + tail.length) : ∃ j' w after, Sees buf k j' w (0 :: after) := by
  obtain ⟨r, hr, hskip⟩ := takeWhile_split (fun c ↦ c == nl) (buf.drop k)
  obtain ⟨r', hr', hrun⟩ := takeWhile_split (fun c ↦ c != 0 && c != nl) r
  have hpre : (buf.drop k).takeWhile (fun c ↦ c == nl) =
      List.replicate ((buf.drop k).takeWhile fun c ↦ c == nl).length nl :=
    List.eq_replicate_of_mem fun c hc ↦ by simpa using List.mem_takeWhile_imp hc
  have hw : ∀ c ∈ r.takeWhile (fun c ↦ c != 0 && c != nl), c ≠ 0 ∧ c ≠ nl := fun c hc ↦ by
    simpa using List.mem_takeWhile_imp hc
  generalize ((buf.drop k).takeWhile fun c ↦ c == nl).length = j' at hpre
  generalize r.takeWhile (fun c ↦ c != 0 && c != nl) = w at hr' hw
  rw [hpre, hr'] at hr
  obtain ⟨q, hq⟩ := Nat.exists_eq_add_of_le hk
  have hnull := h.getElem?_null
  rw [hq, ← List.getElem?_drop, hr] at hnull
  have hat : ∀ i, buf[k + (j' + i)]? = (w ++ r')[i]? := fun i ↦ by
    rw [← List.getElem?_drop, hr, List.getElem?_append_right (by rw [List.length_replicate]; omega),
      List.length_replicate, Nat.add_sub_cancel_left]
  have hge : j' + w.length ≤ q := by
    by_contra hlt
    rcases Nat.lt_or_ge q j' with hin | hout
    · rw [List.getElem?_append_left (by rw [List.length_replicate]; exact hin),
        List.getElem?_replicate_of_lt hin] at hnull
      exact absurd (Option.some.inj hnull) (by decide)
    · obtain ⟨i, rfl⟩ := Nat.exists_eq_add_of_le hout
      rw [← hr, List.getElem?_drop, hat, List.getElem?_append_left (by omega)] at hnull
      exact (hw 0 (List.mem_of_getElem? hnull)).1 rfl
  cases r' with
  | nil =>
    have hlen := (List.getElem?_eq_some_iff.mp hnull).1
    rw [List.length_append, List.length_append, List.length_replicate, List.length_nil] at hlen
    omega
  | cons c after =>
    by_cases hc : c = 0
    · subst hc
      exact ⟨j', w, after, hr, hw, fun c hc ↦ .inl (Option.some.inj hc).symm⟩
    · have hnl : c = nl := by
        have hstop := hrun c after rfl
        by_contra hne
        rw [bne_iff_ne.mpr hc, bne_iff_ne.mpr hne] at hstop
        cases hstop
      subst hnl
      -- a newline would be behind the last character of the run
      rcases List.eq_nil_or_concat w with rfl | ⟨w', d, rfl⟩
      · exact absurd (hskip nl after hr') (by decide)
      · rw [List.concat_eq_append] at hat hw hge
        rw [List.length_append, List.length_singleton] at hge
        have hlast : buf[k + (j' + w'.length)]? = some d := by
          rw [hat, List.append_assoc, List.getElem?_append_right (Nat.le_refl _), Nat.sub_self]
          rfl
        have hbehind : buf[k + (j' + w'.length) + 1]? = some nl := by
          rw [Nat.add_assoc, Nat.add_assoc, hat, List.append_assoc,
            List.getElem?_append_right (Nat.le_add_right _ _), Nat.add_sub_cancel_left]
          rfl
        obtain ⟨hzero, hne⟩ := hw d (List.mem_append_right _ (List.mem_singleton.mpr rfl))
        rcases h.before_newline (by omega) hbehind with heq | heq
        · exact absurd (Option.some.inj (hlast.symm.trans heq)) hne
        · exact absurd (Option.some.inj (hlast.symm.trans heq)) hzero

end Loop

/-! ## The second piece -/

section Pieces

variable {file buf buf' tail rest : List Byte} {ls : List (List Byte)} {pos : ℕ} {syms : Inserted}

theorem length_firstPiece (hbuf : buf.length = 4096) : (firstPiece file buf).length = 4096 := by
  rw [firstPiece, List.length_append, List.length_drop, hbuf, List.length_take]
  omega

/-- What ends behind a character has it in it. -/
theorem exists_append_cons {a s b : List Byte} {c : Byte} {r : List Byte}
    (h : a ++ s = b ++ c :: r) (hlt : b.length < a.length) : ∃ r', a = b ++ c :: r' := by
  rcases List.append_eq_append_iff.mp h with ⟨d, rfl, hd⟩ | ⟨d, rfl, hd⟩
  · rw [List.length_append] at hlt
    omega
  · cases d with
    | nil =>
      rw [List.append_nil] at hlt
      exact absurd hlt (Nat.lt_irrefl _)
    | cons e d =>
      obtain ⟨rfl, -⟩ := List.cons.inj hd
      exact ⟨d, rfl⟩

/-- What begins with newlines and ends with one, with no other in between, has nothing else
in it. -/
theorem eq_replicate_of_getLast? {data stale tail r : List Byte} {j : ℕ}
    (h : data ++ stale = List.replicate j nl ++ (tail ++ r)) (htail : nl ∉ tail)
    (hlen : data.length ≤ j + tail.length) (hlast : data.getLast? = some nl) :
    data = List.replicate data.length nl := by
  have hdata : data = (List.replicate j nl).take data.length ++ tail.take (data.length - j) := by
    have htake := congrArg (List.take data.length) h
    rw [List.take_left, ← List.append_assoc, List.take_append_of_le_length
      (by rw [List.length_append, List.length_replicate]; exact hlen), List.take_append,
      List.length_replicate] at htake
    exact htake
  have hnil : tail.take (data.length - j) = [] := by
    rcases List.eq_nil_or_concat (tail.take (data.length - j)) with hnil | ⟨w, c, hw⟩
    · exact hnil
    · rw [hdata, hw, List.concat_eq_append, List.getLast?_append, List.getLast?_concat] at hlast
      obtain rfl := Option.some.inj hlast
      refine absurd (List.mem_of_mem_take (i := data.length - j) ?_) htail
      rw [hw, List.concat_eq_append]
      exact List.mem_append_right _ (List.mem_singleton.mpr rfl)
  refine List.eq_replicate_of_mem fun c hc ↦ ?_
  rw [hdata, hnil, List.append_nil] at hc
  exact List.eq_of_mem_replicate (List.mem_of_mem_take hc)

/-- What is read behind the first piece begins like what was in the buffer there. -/
theorem Done.append_eq (h : Done (firstPiece file buf) buf' 0 0 ls tail (0 :: rest) pos)
    (hbuf : buf.length = 4096) (hpos : pos < file.length) :
    ∃ j', At buf' pos j' [] tail (0 :: rest) ∧ pos + j' + tail.length < 4096 ∧
      ∃ stale, (file.drop pos).take (4096 - pos) ++ stale =
        List.replicate j' nl ++ (tail ++ 0 :: rest) := by
  obtain ⟨j', hat, -⟩ := h.rest
  have hlt := (List.getElem?_eq_some_iff.mp hat.getElem?_null).1
  rw [h.length, length_firstPiece hbuf] at hlt
  refine ⟨j', hat, hlt, buf.drop (file.take 4096).length, ?_⟩
  have hdrop := hat.drop
  have hle : pos ≤ (file.take 4096).length := by
    rw [List.length_take]
    omega
  rw [h.drop, firstPiece, List.drop_append_of_le_length hle, List.drop_take] at hdrop
  exact hdrop

/-- **In the second piece there is no line**: it begins with a line with a null in it, or has empty
lines only, behind which the old buffer has no newline that could end a line. -/
theorem Done.exists_sees (h : Done (firstPiece file buf) buf' 0 0 ls tail (0 :: rest) pos)
    (hbuf : buf.length = 4096) (hfile : file.getLast? = some nl) (hpos : pos < file.length) :
    ∃ j w after, Sees ((file.drop pos).take 4096 ++
      buf'.drop ((file.drop pos).take 4096).length) 0 j w (0 :: after) := by
  obtain ⟨j', hat, hlt, stale, hstale⟩ := h.append_eq hbuf hpos
  have hrun := run_of_not_mem hat.tail
  rcases Nat.lt_or_ge (pos + j' + tail.length) file.length with hin | hout
  · -- the null is in the file
    obtain ⟨after, hafter⟩ : ∃ after, (file.drop pos).take (4096 - pos) =
        (List.replicate j' nl ++ tail) ++ 0 :: after := by
      rw [← List.append_assoc] at hstale
      refine exists_append_cons hstale ?_
      rw [List.length_append, List.length_replicate, List.length_take, List.length_drop]
      omega
    have htake := List.take_append_drop (4096 - pos) ((file.drop pos).take 4096)
    rw [List.take_take, Nat.min_eq_left (Nat.sub_le _ _), hafter] at htake
    generalize ((file.drop pos).take 4096).drop (4096 - pos) = more at htake
    generalize buf'.drop ((file.drop pos).take 4096).length = behind
    refine ⟨j', tail, after ++ (more ++ behind), ?_, hrun,
      fun c hc ↦ .inl (Option.some.inj hc).symm⟩
    rw [List.drop_zero, ← htake]
    simp only [List.append_assoc, List.cons_append]
  · -- what is left of the file are empty lines
    have hwhole : (file.drop pos).take (4096 - pos) = file.drop pos :=
      List.take_of_length_le (by rw [List.length_drop]; omega)
    have hwhole' : (file.drop pos).take 4096 = file.drop pos :=
      List.take_of_length_le (by rw [List.length_drop]; omega)
    rw [hwhole] at hstale
    have hnewlines : file.drop pos = List.replicate (file.length - pos) nl := by
      have hlast : (file.drop pos).getLast? = some nl := by
        rw [List.getLast?_drop, if_neg (not_le.mpr hpos), hfile]
      rw [eq_replicate_of_getLast? hstale hat.tail.2 (by rw [List.length_drop]; omega) hlast,
        List.length_drop]
    obtain ⟨a, w, after, hsees⟩ := hat.exists_sees (k := file.length - pos) (by omega)
    refine ⟨file.length - pos + a, w, after, ?_, hsees.run, hsees.behind⟩
    rw [List.drop_zero, hwhole', List.length_drop, hsees.drop, hnewlines, List.replicate_add,
      List.append_assoc]

/-- **With it `load_symbols` is done.** -/
theorem Done.pieceLoop_eq (h : Done (firstPiece file buf) buf' 0 0 ls tail (0 :: rest) pos)
    (hbuf : buf.length = 4096) (hfile : file.getLast? = some nl) (lines pieces : ℕ) :
    pieceLoop file (lines + 1) (pieces + 1) buf' pos syms = some syms := by
  rw [pieceLoop]
  by_cases hlen : ((file.drop pos).take 4096).length = 0
  · exact if_pos hlen
  · have hpos : pos < file.length := by
      rw [List.length_take, List.length_drop] at hlen
      omega
    obtain ⟨j, w, after, hsees⟩ := h.exists_sees hbuf hfile hpos
    obtain ⟨token, htoken⟩ := hsees.tokenize_null (s := some 0) (m := none) rfl
    rw [if_neg hlen, readPiece, htoken]
    dsimp only
    rw [lineLoop]
    exact if_pos rfl

theorem Done.eq_of_pieceLoop (h : Done (firstPiece file buf) buf' 0 0 ls tail (0 :: rest) pos)
    (hbuf : buf.length = 4096) (hfile : file.getLast? = some nl) {lines pieces : ℕ} {r : Inserted}
    (hrun : pieceLoop file (lines + 1) pieces buf' pos syms = some r) : r = syms := by
  cases pieces with
  | zero => cases hrun
  | succ pieces =>
    rw [h.pieceLoop_eq hbuf hfile] at hrun
    exact (Option.some.inj hrun).symm

end Pieces

/-! ## The whole -/

section Whole

variable {lines ls : List (List Byte)} {buf tail rest : List Byte}

/-- The first piece of a file that is not empty. -/
theorem loadSymbols_eq {file : List Byte} (hfile : file ≠ []) (buf : List Byte) (n pieces : ℕ) :
    loadSymbols file buf n (pieces + 1) =
      match goOn 0 n (some 0) none (firstPiece file buf) 0 [] with
      | none => none
      | some (buf, bufferPos, syms) =>
        if bufferPos = 0 then some syms else pieceLoop file n pieces buf (0 + bufferPos) syms := by
  have hne : ¬ (file.take 4096).length = 0 := by
    rw [List.length_take]
    have := List.length_pos_iff.mpr hfile
    omega
  rw [loadSymbols, pieceLoop, List.drop_zero, if_neg hne]
  rfl

theorem joined_ne_nil (h : lines ≠ []) : joined nl lines ≠ [] := by
  cases lines with
  | nil => exact absurd rfl h
  | cons l ls =>
    rw [joined_cons]
    exact List.append_ne_nil_of_right_ne_nil _ (List.cons_ne_nil _ _)

theorem getLast?_joined (h : lines ≠ []) : (joined nl lines).getLast? = some nl := by
  rcases List.eq_nil_or_concat lines with hnil | ⟨ls, l, rfl⟩
  · exact absurd hnil h
  · rw [List.concat_eq_append, joined_append, joined_cons, List.getLast?_append,
      List.getLast?_append]
    rfl

/-- The file and the first piece begin alike. -/
theorem firstPiece_append (file : List Byte) (hbuf : buf.length = 4096) :
    ∃ r r', firstPiece file buf ++ r = file ++ r' := by
  rcases Nat.le_total file.length 4096 with hle | hge
  · refine ⟨[], buf.drop file.length, ?_⟩
    rw [firstPiece, List.take_of_length_le hle, List.append_nil]
  · refine ⟨file.drop 4096, [], ?_⟩
    rw [firstPiece, List.length_take, Nat.min_eq_left hge, ← hbuf, List.drop_length,
      List.append_nil, List.append_nil, List.take_append_drop]

/-- A line of the first piece is the line of the file at its position, if there is one. -/
theorem eq_of_mem_firstPiece {r : List Byte} (hbuf : buf.length = 4096)
    (hlines : ∀ l ∈ lines, nl ∉ l) (hls : ∀ l ∈ ls, nl ∉ l)
    (hpiece : firstPiece (joined nl lines) buf = joined nl ls ++ r) {p q : ℕ × List Byte}
    (hp : p ∈ placed 0 lines) (hq : q ∈ placed 0 ls) (hpq : p.1 = q.1) : p = q := by
  obtain ⟨s, s', h⟩ := firstPiece_append (joined nl lines) hbuf
  rw [hpiece, List.append_assoc] at h
  exact eq_of_mem_placed hp hq hlines hls h.symm hpq

theorem mem_placed_of_mem_looked {p : ℕ × List Byte} {b : Bool} {o : ℕ}
    (h : p ∈ looked b o ls) : p ∈ placed o ls :=
  (looked_sublist b o ls).subset h

theorem at_firstPiece {file : List Byte} {after : List Byte}
    (hpiece : firstPiece file buf = joined nl ls ++ (tail ++ after))
    (hls : ∀ l ∈ ls, 0 ∉ l ∧ nl ∉ l) (htail : 0 ∉ tail ∧ nl ∉ tail) :
    At (firstPiece file buf) 0 0 ls tail after where
  drop := hpiece
  lines := hls
  tail := htail
  null := .inl rfl
  cut _ hi := absurd hi (Nat.not_lt_zero _)

/-- **Without a null the buffer is left.** -/
theorem loadSymbols_eq_none {file : List Byte} (hfile : file ≠ []) (h : 0 ∉ firstPiece file buf)
    (n pieces : ℕ) : loadSymbols file buf n pieces = none := by
  cases pieces with
  | zero => rfl
  | succ pieces =>
    obtain ⟨ls, tail, heq, hls, htail⟩ := exists_joined nl (firstPiece file buf)
    have hzero : ∀ l ∈ ls, 0 ∉ l := fun l hl hmem ↦ by
      refine h (heq ▸ List.mem_append_left _ (List.mem_flatMap.mpr ⟨l, hl, ?_⟩))
      exact List.mem_append_left _ hmem
    have hpiece : firstPiece file buf = joined nl ls ++ (tail ++ []) := by
      rw [List.append_nil]
      exact heq
    have hat := at_firstPiece hpiece (fun l hl ↦ ⟨hzero l hl, hls l hl⟩)
      ⟨fun hmem ↦ h (heq ▸ List.mem_append_right _ hmem), htail⟩
    rw [loadSymbols_eq hfile, hat.goOn_eq_none rfl]

/-- **With one, what is inserted is where the candidates are.** -/
theorem map_fst_of_loadSymbols {file : List Byte} (hfile : file.getLast? = some nl)
    (hbuf : buf.length = 4096) (hpiece : firstPiece file buf = joined nl ls ++ (tail ++ 0 :: rest))
    (hls : ∀ l ∈ ls, 0 ∉ l ∧ nl ∉ l) (htail : 0 ∉ tail ∧ nl ∉ tail) {n : ℕ} {r : Inserted}
    (hrun : loadSymbols file buf n n = some r) :
    r.map (fun p ↦ p.1) = (candidates 0 0 ls).map fun p ↦ p.1 := by
  have hne : file ≠ [] := fun h ↦ by
    rw [h] at hfile
    cases hfile
  cases n with
  | zero => cases hrun
  | succ n =>
    rw [loadSymbols_eq hne] at hrun
    cases hgo : goOn 0 (n + 1) (some 0) none (firstPiece file buf) 0 [] with
    | none =>
      rw [hgo] at hrun
      cases hrun
    | some result =>
      obtain ⟨buf', pos, syms⟩ := result
      obtain ⟨hdone, ins, hsyms, hins⟩ := (at_firstPiece hpiece hls htail).goOn_spec rfl hgo
      have hr : r = syms := by
        rw [hgo] at hrun
        dsimp only at hrun
        rw [Nat.zero_add] at hrun
        split at hrun
        · exact (Option.some.inj hrun).symm
        · exact hdone.eq_of_pieceLoop hbuf hfile hrun
      rw [hr, hsyms, List.nil_append, hins]
      exact List.map_congr_left fun p _ ↦ Nat.zero_add p.1

/-- **If they all are well-formed, that is what is loaded.** -/
theorem exists_loadSymbols {file : List Byte} (hfile : file.getLast? = some nl)
    (hbuf : buf.length = 4096) (hpiece : firstPiece file buf = joined nl ls ++ (tail ++ 0 :: rest))
    (hls : ∀ l ∈ ls, 0 ∉ l ∧ nl ∉ l) (htail : 0 ∉ tail ∧ nl ∉ tail)
    (hgood : ∀ p ∈ candidates 0 0 ls, WellFormed p.2 ∧ p.2.length < 1024) :
    ∃ n, loadSymbols file buf n n =
      some ((candidates 0 0 ls).map fun p ↦ (p.1, symbolOf p.2)) := by
  have hne : file ≠ [] := fun h ↦ by
    rw [h] at hfile
    cases hfile
  have hat := at_firstPiece hpiece hls htail
  have hn : ls.length < ls.length + 1 + 1 := by omega
  have hstart : (some 0 <|> none) = some 0 := rfl
  refine ⟨ls.length + 1 + 1, ?_⟩
  obtain ⟨buf', pos, hrun⟩ : ∃ buf' pos, goOn 0 (ls.length + 1 + 1) (some 0) none
      (firstPiece file buf) 0 [] = some (buf', pos,
        [] ++ (candidates 0 0 ls).map fun p ↦ (0 + p.1, symbolOf p.2)) :=
    hat.goOn_total hstart hgood hn
  obtain ⟨hdone, -⟩ := hat.goOn_spec rfl hrun
  have hmap : ([] ++ (candidates 0 0 ls).map fun p ↦ (0 + p.1, symbolOf p.2)) =
      (candidates 0 0 ls).map fun p ↦ (p.1, symbolOf p.2) := by
    rw [List.nil_append]
    exact List.map_congr_left fun p _ ↦ by rw [Nat.zero_add]
  rw [hmap] at hrun
  rw [loadSymbols_eq hne, hrun]
  dsimp only
  rw [Nat.zero_add]
  split
  · rfl
  · exact hdone.pieceLoop_eq hbuf hfile _ _

/-- A null in the buffer ends its lines. -/
theorem exists_lines (h : 0 ∈ buf) : ∃ ls tail rest,
    buf = joined nl ls ++ (tail ++ 0 :: rest) ∧ (∀ l ∈ ls, 0 ∉ l ∧ nl ∉ l) ∧
      (0 ∉ tail ∧ nl ∉ tail) := by
  obtain ⟨before, rest, rfl, hbefore⟩ := List.eq_append_cons_of_mem h
  obtain ⟨ls, tail, rfl, hls, htail⟩ := exists_joined nl before
  refine ⟨ls, tail, rest, List.append_assoc .., fun l hl ↦ ⟨fun hmem ↦ ?_, hls l hl⟩,
    fun hmem ↦ hbefore (List.mem_append_right _ hmem), htail⟩
  exact hbefore (List.mem_append_left _
    (List.mem_flatMap.mpr ⟨l, hl, List.mem_append_left _ hmem⟩))

theorem mem_candidates {p : ℕ × List Byte} :
    p ∈ candidates 0 0 ls ↔ p ∈ looked false 0 ls ∧ Accepted p.2 := by
  rw [candidates, List.mem_filter, decide_eq_true_iff]
  rfl

/-- The symbols of the file are where its well-formed lines are. -/
theorem map_fst_symbols (lines : List (List Byte)) : (symbols lines).map (fun p ↦ p.1) =
    ((placed 0 lines).filter fun p ↦ decide (WellFormed p.2)).map fun p ↦ p.1 := by
  rw [symbols, List.map_map]
  rfl

/-- What is loaded, is so because the first piece suits. -/
theorem Loads.suits (hlines : ∀ l ∈ lines, nl ∉ l) (hbuf : buf.length = 4096)
    (hne : lines ≠ []) (h : Loads lines buf) : Suits lines buf := by
  obtain ⟨n, hrun⟩ := h
  have hnull : 0 ∈ firstPiece (joined nl lines) buf := by
    by_contra hnull
    rw [loadSymbols_eq_none (joined_ne_nil hne) hnull] at hrun
    cases hrun
  obtain ⟨ls, tail, rest, hpiece, hls, htail⟩ := exists_lines hnull
  have hfst := map_fst_of_loadSymbols (getLast?_joined hne) hbuf hpiece hls htail hrun
  rw [map_fst_symbols] at hfst
  have hsame : ∀ p ∈ placed 0 lines, ∀ q ∈ looked false 0 ls, p.1 = q.1 → p = q :=
    fun p hp q hq ↦ eq_of_mem_firstPiece hbuf hlines (fun l hl ↦ (hls l hl).2) hpiece hp
      (mem_placed_of_mem_looked hq)
  refine ⟨ls, tail, rest, hpiece, hls, htail, fun p hp hwell ↦ ?_, fun q hq hacc ↦ ?_⟩
  · have hmem : p.1 ∈ (candidates 0 0 ls).map fun p ↦ p.1 :=
      hfst ▸ List.mem_map_of_mem (List.mem_filter.mpr ⟨hp, decide_eq_true hwell⟩)
    obtain ⟨q, hq, hpq⟩ := List.mem_map.mp hmem
    have hq := (mem_candidates.mp hq).1
    exact hsame p hp q hq hpq.symm ▸ hq
  · have hmem : q.1 ∈ ((placed 0 lines).filter fun p ↦ decide (WellFormed p.2)).map fun p ↦ p.1 :=
      hfst ▸ List.mem_map_of_mem (mem_candidates.mpr ⟨hq, hacc⟩)
    obtain ⟨p, hp, hpq⟩ := List.mem_map.mp hmem
    obtain ⟨hp, hwell⟩ := List.mem_filter.mp hp
    obtain rfl := hsame p hp q hq hpq
    exact ⟨of_decide_eq_true hwell, hp⟩

/-- If the first piece suits, everything is loaded. -/
theorem Suits.loads (hlines : ∀ l ∈ lines, l.length < 1024) (hbuf : buf.length = 4096)
    (hne : lines ≠ []) (h : Suits lines buf) : Loads lines buf := by
  obtain ⟨ls, tail, rest, hpiece, hls, htail, hall, honly⟩ := h
  have hgood : ∀ p ∈ candidates 0 0 ls, WellFormed p.2 ∧ p.2.length < 1024 := fun p hp ↦ by
    obtain ⟨hp, hacc⟩ := mem_candidates.mp hp
    obtain ⟨hwell, hplaced⟩ := honly p hp hacc
    obtain ⟨before, after, heq, -⟩ := exists_append_of_mem_placed nl hplaced
    refine ⟨hwell, hlines p.2 ?_⟩
    rw [heq]
    exact List.mem_append_right _ List.mem_cons_self
  have heq : candidates 0 0 ls = (placed 0 lines).filter fun p ↦ decide (WellFormed p.2) := by
    refine eq_of_pairwise ?_ ((pairwise_placed 0 lines).sublist List.filter_sublist) fun p ↦ ?_
    · exact (pairwise_placed 0 ls).sublist
        (List.filter_sublist.trans (looked_sublist false 0 ls))
    · rw [mem_candidates, List.mem_filter, decide_eq_true_iff]
      constructor
      · rintro ⟨hp, hacc⟩
        exact (honly p hp hacc).symm
      · rintro ⟨hp, hwell⟩
        exact ⟨hall p hp hwell, hwell.accepted⟩
  obtain ⟨n, hrun⟩ := exists_loadSymbols (getLast?_joined hne) hbuf hpiece hls htail hgood
  refine ⟨n, hrun.trans ?_⟩
  rw [heq]
  rfl

/-- **Exactly the files whose first piece suits are loaded**, and the empty one. -/
theorem loadsSymbols_iff (hlines : ∀ l ∈ lines, nl ∉ l ∧ l.length < 1024)
    (hbuf : buf.length = 4096) :
    Loads lines buf ↔ lines = [] ∨ Suits lines buf := by
  constructor
  · intro h
    by_cases hne : lines = []
    · exact .inl hne
    · exact .inr (h.suits (fun l hl ↦ (hlines l hl).1) hbuf hne)
  · intro h
    by_cases hne : lines = []
    · exact ⟨1, by rw [hne]; rfl⟩
    · exact (h.resolve_left hne).loads (fun l hl ↦ (hlines l hl).2) hbuf hne

/-- A file of 4096 bytes leaves no null in the buffer. -/
theorem not_loads_of_length (hzero : ∀ l ∈ lines, 0 ∉ l) (hlen : 4096 ≤ (joined nl lines).length)
    (hbuf : buf.length = 4096) : ¬ Loads lines buf := by
  rintro ⟨n, hrun⟩
  have hne : joined nl lines ≠ [] := fun h ↦ by
    rw [h] at hlen
    exact absurd hlen (by decide)
  have hnull : 0 ∉ firstPiece (joined nl lines) buf := by
    rw [firstPiece, List.length_take, Nat.min_eq_left hlen, ← hbuf, List.drop_length,
      List.append_nil]
    intro hmem
    obtain ⟨l, hl, hmem⟩ := List.mem_flatMap.mp (List.mem_of_mem_take hmem)
    rcases List.mem_append.mp hmem with hmem | hmem
    · exact hzero l hl hmem
    · exact absurd (List.mem_singleton.mp hmem) (by decide)
  rw [loadSymbols_eq_none hne hnull] at hrun
  cases hrun

end Whole

/-- `0000000000000001 T a`. -/
def exampleLine : List Byte := List.replicate 15 0x30 ++ [0x31, 0x20, 0x54, 0x20, 0x61]

/-- One line, and nothing but nulls in the buffer before. -/
theorem loadsSymbols_iff_one : Loads [exampleLine] (List.replicate 4096 0) := by
  refine (loadsSymbols_iff ?_ List.length_replicate).mpr (.inr ?_)
  · decide
  · refine ⟨[exampleLine], [], List.replicate 4074 0, ?_, by decide, by decide, by decide,
      by decide⟩
    have htake : (joined nl [exampleLine]).take 4096 = joined nl [exampleLine] :=
      List.take_of_length_le (by decide)
    have hdrop : (List.replicate 4096 (0 : Byte)).drop (joined nl [exampleLine]).length =
        0 :: List.replicate 4074 0 := by
      rw [List.drop_replicate, ← List.replicate_succ]
      rfl
    rw [firstPiece, htake, hdrop]
    rfl

/-- 200 of them are too many, whatever is in the buffer. -/
theorem not_loadsSymbols_replicate :
    (∀ l ∈ List.replicate 200 exampleLine, WellFormed l ∧ nl ∉ l ∧ l.length < 1024) ∧
      ¬ Loads (List.replicate 200 exampleLine) (List.replicate 4096 0) := by
  constructor
  · intro l hl
    rw [List.eq_of_mem_replicate hl]
    decide
  · refine not_loads_of_length (fun l hl ↦ ?_) ?_ List.length_replicate
    · rw [List.eq_of_mem_replicate hl]
      decide
    · have hlen : (joined nl (List.replicate 200 exampleLine)).length = 200 * 21 := by
        rw [joined, List.length_flatMap, List.map_replicate, List.sum_replicate]
        rfl
      rw [hlen]
      decide

end Symbols

end Borrrdex
