import Mathlib.Data.Nat.Digits.Lemmas
import Borrrdex.Kstd.Memcpy

/-!
# Numbers as strings

`itoa` writes the digits of a number from the last one on, and then turns them round in place with
`reverse`.  `hex_to_pointer` reads hexadecimal digits of either case, a shift for each.  Neither
knows of the other: `itoa_spec` says that the string has the number as its value, by positions, and
`hexToPointer_spec` that a string is read as its value.

A string is at an address of the memory, and addresses do not wrap.
-/

set_option autoImplicit false

namespace Borrrdex

/-- The memory has a string, and its null. -/
structure StringAt (m : ByteMem) (a : ℕ) (w : List Byte) : Prop where
  char : ∀ i (h : i < w.length), m (a + i) = w[i]
  null : m (a + w.length) = 0
  ne_zero : ∀ c ∈ w, c ≠ 0

/-! ## The code -/

/-- The loop of `reverse`, with so many rounds to go. -/
def reverseLoop : ℕ → ℕ → ℕ → ByteMem → ByteMem
  | 0, _, _, m => m
  | rounds + 1, str, last, m =>
    let c := m last
    let m := Function.update m last (m str)
    reverseLoop rounds (str + 1) (last - 1) (Function.update m str c)

/-- `reverse`. -/
def reverse (str length : ℕ) (m : ByteMem) : ByteMem :=
  reverseLoop (length / 2) str (str + length - 1) m

/-- `(rem > 9) ? (rem - 10) + 'a' : rem + '0'`. -/
def digitChar (rem : ℕ) : Byte :=
  if rem > 9 then BitVec.ofNat 8 (rem - 10 + 0x61) else BitVec.ofNat 8 (rem + 0x30)

/-- The loop of `itoa`, with so many tests of its condition. -/
def itoaLoop (str base : ℕ) : ℕ → U64 → ℕ → ByteMem → Option (ℕ × ByteMem)
  | 0, _, _, _ => none
  | tests + 1, num, i, m =>
    if num ≠ 0 then
      let rem := (num % BitVec.ofNat 64 base).toNat
      itoaLoop str base tests (num / BitVec.ofNat 64 base) (i + 1)
        (Function.update m (str + i) (digitChar rem))
    else some (i, m)

/-- `itoa(num, str, base)`, for a base that is not negative. -/
def itoa (tests : ℕ) (num : U64) (str base : ℕ) (m : ByteMem) : Option ByteMem :=
  if num = 0 then some (Function.update (Function.update m str 0x30) (str + 1) 0)
  else (itoaLoop str base tests num 0 m).map fun p ↦
    reverse str p.1 (Function.update p.2 (str + p.1) 0)

/-- What `hex_to_pointer` takes a character for. -/
def hexDigit (c : Byte) : Option Byte :=
  if 0x30 ≤ c ∧ c ≤ 0x39 then some ((c - 0x30) &&& 0xF)
  else if 0x61 ≤ c ∧ c ≤ 0x66 then some ((c - 0x61 + 0xA) &&& 0xF)
  else if 0x41 ≤ c ∧ c ≤ 0x46 then some ((c - 0x41 + 0xA) &&& 0xF)
  else none

/-- The loop of `hex_to_pointer`, with so many characters left: what is returned, and `ptr`. -/
def hexLoop (m : ByteMem) : ℕ → ℕ → U64 → ℕ × U64
  | 0, _, ptr => (0, ptr)
  | left + 1, buffer, ptr =>
    if m buffer = 0 then (0, ptr)
    else
      match hexDigit (m buffer) with
      | some digit => hexLoop m left (buffer + 1) (ptr <<< 4 ||| digit.setWidth 64)
      | none => (1, ptr <<< 4)

/-- `hex_to_pointer`. -/
def hexToPointer (buffer bufferSize : ℕ) (m : ByteMem) : ℕ × U64 := hexLoop m bufferSize buffer 0

/-! ## What a string stands for -/

/-- The value of a digit, a letter of either case counting from ten on. -/
def digitValue (c : Byte) : Option ℕ :=
  if 0x30 ≤ c.toNat ∧ c.toNat ≤ 0x39 then some (c.toNat - 0x30)
  else if 0x61 ≤ c.toNat ∧ c.toNat ≤ 0x7A then some (c.toNat - 0x61 + 10)
  else if 0x41 ≤ c.toNat ∧ c.toNat ≤ 0x5A then some (c.toNat - 0x41 + 10)
  else none

/-- A digit of the base. -/
def IsDigit (base : ℕ) (c : Byte) : Prop := ∃ d < base, digitValue c = some d

/-- **The value of a string**, by positions. -/
def value (base : ℕ) (w : List Byte) : ℕ :=
  w.foldl (fun v c ↦ base * v + (digitValue c).getD 0) 0

/-- **The number as a string**: digits of the base, without leading zeros, that have it as value. -/
structure Represents (base n : ℕ) (w : List Byte) : Prop where
  digits : ∀ c ∈ w, IsDigit base c
  nonempty : w ≠ []
  canonical : n ≠ 0 → w.head? ≠ some 0x30
  zero : n = 0 → w = [0x30]
  value : value base w = n

/-! ## Turning round -/

/-- What the rounds of `reverse` from the `i`-th on leave. -/
theorem reverseLoop_apply {str length rounds i : ℕ} (hmost : 2 * (i + rounds) ≤ length)
    (hall : length ≤ 2 * (i + rounds) + 1) (m : ByteMem) (a : ℕ) :
    reverseLoop rounds (str + i) (str + length - 1 - i) m a =
      if str + i ≤ a ∧ a < str + length - i then m (str + (str + length - 1 - a)) else m a := by
  induction rounds generalizing i m with
  | zero =>
    rw [reverseLoop]
    split_ifs with hin
    · -- the middle is left where it is
      congr 1
      omega
    · rfl
  | succ rounds ih =>
    have hlast : str + length - 1 - i - 1 = str + length - 1 - (i + 1) := by omega
    rw [reverseLoop, hlast, Nat.add_assoc, ih (by omega) (by omega)]
    by_cases hin : str + (i + 1) ≤ a ∧ a < str + length - (i + 1)
    · rw [if_pos hin, if_pos (by omega), Function.update_of_ne (by omega),
        Function.update_of_ne (by omega)]
    · rw [if_neg hin]
      by_cases hfirst : a = str + i
      · rw [if_pos (by omega), hfirst, Function.update_self]
        congr 1
        omega
      · rw [Function.update_of_ne hfirst]
        by_cases hend : a = str + length - 1 - i
        · rw [if_pos (by omega), hend, Function.update_self]
          congr 1
          omega
        · rw [Function.update_of_ne hend, if_neg (by omega)]

theorem reverse_apply (str length : ℕ) (m : ByteMem) (a : ℕ) :
    reverse str length m a =
      if str ≤ a ∧ a < str + length then m (str + (str + length - 1 - a)) else m a := by
  have hmost : 2 * (0 + length / 2) ≤ length := by omega
  exact reverseLoop_apply hmost (by omega) m a

/-! ## Digits -/

theorem digitValue_digitChar {d : ℕ} (h : d < 36) : digitValue (digitChar d) = some d := by
  revert d
  decide

theorem digitChar_eq_zero_iff {d : ℕ} (h : d < 36) : digitChar d = 0x30 ↔ d = 0 := by
  revert d
  decide

/-- A hexadecimal digit is taken for its value. -/
theorem hexDigit_of_isDigit {c : Byte} (h : IsDigit 16 c) :
    ∃ digit : Byte, hexDigit c = some digit ∧ digit.toNat < 16 ∧
      digitValue c = some digit.toNat := by
  obtain ⟨d, hd, hvalue⟩ := h
  have hall : ∀ c : Byte, ∀ d < 16, digitValue c = some d →
      hexDigit c = some (BitVec.ofNat 8 d) := by decide +kernel
  refine ⟨BitVec.ofNat 8 d, hall c d hd hvalue, ?_, ?_⟩
  · rw [BitVec.toNat_ofNat]
    omega
  · rw [hvalue, BitVec.toNat_ofNat, Nat.mod_eq_of_lt (by omega)]

theorem IsDigit.ne_zero {base : ℕ} {c : Byte} (h : IsDigit base c) : c ≠ 0 := by
  obtain ⟨d, -, hvalue⟩ := h
  rintro rfl
  cases hvalue

/-! ## From a string to a number -/

/-- The value of a string, with something in front of it. -/
theorem foldl_value (base : ℕ) (w : List Byte) (v : ℕ) :
    w.foldl (fun v c ↦ base * v + (digitValue c).getD 0) v = v * base ^ w.length +
      value base w := by
  induction w generalizing v with
  | nil => simp [value]
  | cons c w ih =>
    rw [value, List.foldl_cons, List.foldl_cons, ih, ih, List.length_cons, pow_succ]
    ring

/-- **The loop of `hex_to_pointer`** over digits that there is room for. -/
theorem hexLoop_eq {m : ByteMem} {w : List Byte} (hdigits : ∀ c ∈ w, IsDigit 16 c) {buffer left : ℕ}
    (hchar : ∀ i, (h : i < w.length) → m (buffer + i) = w[i])
    (hnull : w.length < left → m (buffer + w.length) = 0) (hleft : w.length ≤ left) {ptr : U64}
    (hroom : (ptr.toNat + 1) * 16 ^ w.length ≤ 2 ^ 64) :
    (hexLoop m left buffer ptr).1 = 0 ∧
      (hexLoop m left buffer ptr).2.toNat = ptr.toNat * 16 ^ w.length + value 16 w := by
  induction w generalizing buffer left ptr with
  | nil =>
    cases left with
    | zero => simp [hexLoop, value]
    | succ left =>
      have hzero : m buffer = 0 := hnull (Nat.succ_pos left)
      simp [hexLoop, hzero, value]
  | cons c w ih =>
    obtain ⟨hc, hdigits⟩ := List.forall_mem_cons.mp hdigits
    obtain ⟨digit, hdigit, hlt, hvalue⟩ := hexDigit_of_isDigit hc
    have hfirst : m buffer = c := hchar 0 (Nat.succ_pos _)
    rw [List.length_cons] at hnull hleft
    obtain ⟨left, rfl⟩ : ∃ k, left = k + 1 := ⟨left - 1, by omega⟩
    have hchar' : ∀ i, (h : i < w.length) → m (buffer + 1 + i) = w[i] := fun i hi ↦ by
      rw [Nat.add_assoc, Nat.add_comm 1]
      exact hchar (i + 1) (Nat.succ_lt_succ hi)
    have hnull' : w.length < left → m (buffer + 1 + w.length) = 0 := fun hlt ↦ by
      rw [Nat.add_assoc, Nat.add_comm 1]
      exact hnull (Nat.succ_lt_succ hlt)
    have hpow : 1 ≤ 16 ^ w.length := Nat.one_le_pow _ _ (by decide)
    rw [List.length_cons, pow_succ] at hroom
    have hsmall : (ptr.toNat + 1) * 16 ≤ 2 ^ 64 :=
      (Nat.mul_le_mul_left _ (Nat.le_mul_of_pos_left 16 hpow)).trans hroom
    have hptr : (ptr <<< 4 ||| digit.setWidth 64).toNat = 16 * ptr.toNat + digit.toNat := by
      rw [BitVec.toNat_or, BitVec.toNat_shiftLeft, BitVec.toNat_setWidth,
        Nat.mod_eq_of_lt (a := digit.toNat) (by omega), Nat.shiftLeft_eq,
        Nat.mod_eq_of_lt (by omega), ← Nat.shiftLeft_eq,
        ← Nat.shiftLeft_add_eq_or_of_lt (by omega), Nat.shiftLeft_eq]
      ring
    have hroom' : ((ptr <<< 4 ||| digit.setWidth 64).toNat + 1) * 16 ^ w.length ≤ 2 ^ 64 := by
      refine (Nat.mul_le_mul_right _ (?_ : _ ≤ (ptr.toNat + 1) * 16)).trans ?_
      · rw [hptr]
        omega
      · rwa [Nat.mul_assoc, Nat.mul_comm 16]
    have hloop := ih hdigits hchar' hnull' (Nat.le_of_succ_le_succ hleft) hroom'
    rw [hexLoop, hfirst, if_neg hc.ne_zero, hdigit]
    dsimp only
    refine ⟨hloop.1, hloop.2.trans ?_⟩
    have hcons : value 16 (c :: w) = digit.toNat * 16 ^ w.length + value 16 w := by
      rw [value, List.foldl_cons, foldl_value, hvalue, Option.getD_some, Nat.mul_zero, Nat.zero_add]
    rw [hptr, hcons, List.length_cons, pow_succ]
    ring

/-- It reads no further than to a null. -/
theorem hexLoop_congr {m m' : ByteMem} {n buffer buffer' : ℕ}
    (h : ∀ i ≤ n, m (buffer + i) = m' (buffer' + i)) (hnull : m (buffer + n) = 0) (left : ℕ)
    (ptr : U64) : hexLoop m left buffer ptr = hexLoop m' left buffer' ptr := by
  induction left generalizing n buffer buffer' ptr with
  | zero => rfl
  | succ left ih =>
    have hfirst : m buffer = m' buffer' := h 0 (Nat.zero_le n)
    rw [hexLoop, hexLoop, ← hfirst]
    split
    · rfl
    · next hne =>
      obtain ⟨k, rfl⟩ : ∃ k, n = k + 1 := Nat.exists_eq_succ_of_ne_zero fun hzero ↦ by
        rw [hzero] at hnull
        exact hne hnull
      have hshift : ∀ i, buffer + 1 + i = buffer + (i + 1) := fun i ↦ by omega
      split
      · refine ih (n := k) (fun i hi ↦ ?_) (by rw [hshift]; exact hnull) _
        rw [hshift, h (i + 1) (by omega), Nat.add_assoc, Nat.add_comm 1]
      · rfl

/-- **`hex_to_pointer` yields the value.** -/
theorem hexToPointer_spec {m : ByteMem} {buffer bufferSize : ℕ} {w : List Byte}
    (hw : StringAt m buffer w) (hdigits : ∀ c ∈ w, IsDigit 16 c) (hlength : w.length ≤ 16)
    (hsize : w.length ≤ bufferSize) :
    (hexToPointer buffer bufferSize m).1 = 0 ∧
      (hexToPointer buffer bufferSize m).2.toNat = value 16 w := by
  have hzero : (0 : U64).toNat = 0 := rfl
  have hpow : 16 ^ w.length ≤ 16 ^ 16 := Nat.pow_le_pow_right (by decide) hlength
  have hroom : ((0 : U64).toNat + 1) * 16 ^ w.length ≤ 2 ^ 64 := by
    rw [hzero]
    omega
  have hloop := hexLoop_eq hdigits hw.char (fun _ ↦ hw.null) hsize hroom
  rw [hzero, Nat.zero_mul, Nat.zero_add] at hloop
  exact hloop

/-! ## From a number to a string -/

/-- The digits as characters, the last one first. -/
def digitChars (base n : ℕ) : List Byte := (Nat.digits base n).map digitChar

/-- **The loop of `itoa`** writes the digits from the last one on. -/
theorem itoaLoop_eq {base : ℕ} (hbase : 2 ≤ base) (hle : base ≤ 36) (str : ℕ) {tests : ℕ}
    {num : U64} (htests : (digitChars base num.toNat).length < tests) (i : ℕ) (m : ByteMem) :
    ∃ m', itoaLoop str base tests num i m =
        some (i + (digitChars base num.toNat).length, m') ∧
      (∀ j (h : j < (digitChars base num.toNat).length),
        m' (str + i + j) = (digitChars base num.toNat)[j]) ∧
      ∀ a, ¬ (str + i ≤ a ∧ a < str + i + (digitChars base num.toNat).length) → m' a = m a := by
  induction tests generalizing num i m with
  | zero => exact absurd htests (Nat.not_lt_zero _)
  | succ tests ih =>
    rw [itoaLoop]
    by_cases hnum : num = 0
    · subst hnum
      refine ⟨m, by simp [digitChars], fun j h ↦ ?_, fun _ _ ↦ rfl⟩
      simp [digitChars] at h
    · have hpos : 0 < num.toNat := Nat.pos_of_ne_zero fun h ↦ hnum (BitVec.toNat_eq.mpr h)
      have hb : (BitVec.ofNat 64 base).toNat = base := by
        rw [BitVec.toNat_ofNat, Nat.mod_eq_of_lt (by omega)]
      have hrem : (num % BitVec.ofNat 64 base).toNat = num.toNat % base := by
        rw [BitVec.toNat_umod, hb]
      have hdiv : (num / BitVec.ofNat 64 base).toNat = num.toNat / base := by
        rw [BitVec.toNat_udiv, hb]
      have hchars : digitChars base num.toNat =
          digitChar (num.toNat % base) :: digitChars base (num.toNat / base) := by
        rw [digitChars, Nat.digits_def' (by omega) hpos]
        rfl
      rw [hchars] at htests ⊢
      simp only [List.length_cons] at htests ⊢
      rw [if_pos hnum, hrem]
      have htests' :
          (digitChars base (num / BitVec.ofNat 64 base).toNat).length < tests := by
        rw [hdiv]
        omega
      obtain ⟨m', hloop, hchar, hother⟩ := ih htests' (i + 1)
        (Function.update m (str + i) (digitChar (num.toNat % base)))
      rw [hdiv] at hloop hchar hother
      refine ⟨m', hloop.trans ?_, fun j hj ↦ ?_, fun a ha ↦ ?_⟩
      · rw [Nat.add_right_comm, Nat.add_assoc]
      · cases j with
        | zero =>
          rw [Nat.add_zero, hother _ (by omega), Function.update_self]
          rfl
        | succ j =>
          rw [← Nat.add_assoc, Nat.add_right_comm, Nat.add_assoc str]
          exact hchar j (Nat.lt_of_succ_lt_succ hj)
      · rw [hother a (by omega), Function.update_of_ne (by omega)]

/-- The digits, from the first one on, are the number as a string. -/
theorem represents_reverse {base : ℕ} (hbase : 2 ≤ base) (hle : base ≤ 36) {n : ℕ} (hn : n ≠ 0) :
    Represents base n (digitChars base n).reverse := by
  have hlt : ∀ d ∈ Nat.digits base n, d < base := fun d hd ↦ Nat.digits_lt_base (by omega) hd
  have hne : Nat.digits base n ≠ [] := Nat.digits_ne_nil_iff_ne_zero.mpr hn
  refine ⟨fun c hc ↦ ?_, ?_, fun _ ↦ ?_, fun h ↦ absurd h hn, ?_⟩
  · obtain ⟨d, hd, rfl⟩ := List.mem_map.mp (List.mem_reverse.mp hc)
    have hd' := hlt d hd
    exact ⟨d, hd', digitValue_digitChar (by omega)⟩
  · rw [List.reverse_ne_nil_iff, digitChars]
    exact fun h ↦ hne (List.map_eq_nil_iff.mp h)
  · have hlast := Nat.getLast_digit_ne_zero base hn
    have hlast' := hlt _ (List.getLast_mem hne)
    rw [List.head?_reverse, digitChars, List.getLast?_map, List.getLast?_eq_getLast_of_ne_nil hne,
      Option.map_some, ne_eq, Option.some.injEq, digitChar_eq_zero_iff (by omega)]
    exact hlast
  · have hfold : ∀ ds : List ℕ, (∀ d ∈ ds, d < base) →
        (ds.map digitChar).foldr (fun c v ↦ base * v + (digitValue c).getD 0) 0 =
          Nat.ofDigits base ds := by
      intro ds hds
      induction ds with
      | nil => rfl
      | cons d ds ih =>
        obtain ⟨hd, hds⟩ := List.forall_mem_cons.mp hds
        rw [List.map_cons, List.foldr_cons, ih hds, digitValue_digitChar (by omega),
          Option.getD_some, Nat.ofDigits_cons]
        exact Nat.add_comm _ _
    rw [value, List.foldl_reverse, digitChars, hfold _ hlt, Nat.ofDigits_digits]

theorem represents_zero {base : ℕ} (hbase : 2 ≤ base) : Represents base 0 [0x30] where
  digits c hc := by
    rw [List.mem_singleton.mp hc]
    exact ⟨0, by omega, rfl⟩
  nonempty := List.cons_ne_nil _ _
  canonical h := absurd rfl h
  zero _ := rfl
  value := rfl

/-- The string that `itoa` writes. -/
def numeral (base n : ℕ) : List Byte := if n = 0 then [0x30] else (digitChars base n).reverse

theorem represents_numeral {base : ℕ} (hbase : 2 ≤ base) (hle : base ≤ 36) (n : ℕ) :
    Represents base n (numeral base n) := by
  rw [numeral]
  split_ifs with hn
  · rw [hn]
    exact represents_zero hbase
  · exact represents_reverse hbase hle hn

/-- Sixteen digits are enough for 64 bits. -/
theorem length_numeral_le (num : U64) : (numeral 16 num.toNat).length ≤ 16 := by
  have hdigits := (Nat.digits_length_le_iff (by decide : 1 < 16) (k := 16) num.toNat).mpr num.isLt
  rw [numeral]
  split_ifs
  · decide
  · rw [List.length_reverse, digitChars, List.length_map]
    exact hdigits

/-- **`itoa` writes the number as a string**, and nothing else. -/
theorem itoa_spec (num : U64) (str : ℕ) {base : ℕ} (hbase : 2 ≤ base) (hle : base ≤ 36)
    (m : ByteMem) : ∃ tests m', itoa tests num str base m = some m' ∧
      StringAt m' str (numeral base num.toNat) ∧
      ∀ a, ¬ (str ≤ a ∧ a ≤ str + (numeral base num.toNat).length) → m' a = m a := by
  by_cases hnum : num = 0
  · subst hnum
    refine ⟨0, _, if_pos rfl, ⟨fun i hi ↦ ?_, Function.update_self .., ?_⟩, fun a ha ↦ ?_⟩
    · obtain rfl : i = 0 := Nat.lt_one_iff.mp hi
      rw [Function.update_of_ne (by omega), Nat.add_zero, Function.update_self]
      rfl
    · intro c hc
      obtain rfl : c = 0x30 := List.mem_singleton.mp hc
      decide
    · have hlength : (numeral base (0 : U64).toNat).length = 1 := rfl
      rw [hlength] at ha
      rw [Function.update_of_ne (by omega), Function.update_of_ne (by omega)]
  · have hn : num.toNat ≠ 0 := fun h ↦ hnum (BitVec.toNat_eq.mpr h)
    obtain ⟨m', hloop, hchar, hother⟩ :=
      itoaLoop_eq hbase hle str (Nat.lt_succ_self (digitChars base num.toNat).length) 0 m
    rw [Nat.zero_add, Nat.add_zero] at *
    have hrep := represents_reverse hbase hle hn
    have hpos : 0 < (digitChars base num.toNat).length := by
      rw [← List.length_reverse]
      exact List.length_pos_iff.mpr hrep.nonempty
    rw [numeral, if_neg hn]
    have hcall : itoa ((digitChars base num.toNat).length + 1) num str base m =
        some (reverse str (digitChars base num.toNat).length
          (Function.update m' (str + (digitChars base num.toNat).length) 0)) := by
      rw [itoa, if_neg hnum, hloop]
      rfl
    refine ⟨_, _, hcall, ⟨fun i hi ↦ ?_, ?_, fun c hc ↦ (hrep.digits c hc).ne_zero⟩,
      fun a ha ↦ ?_⟩
    · rw [List.length_reverse] at hi
      have hplace : str + (str + (digitChars base num.toNat).length - 1 - (str + i)) =
          str + ((digitChars base num.toNat).length - 1 - i) := by omega
      rw [reverse_apply, if_pos (by omega), hplace, Function.update_of_ne (by omega),
        hchar _ (by omega), List.getElem_reverse]
    · rw [List.length_reverse, reverse_apply, if_neg (by omega), Function.update_self]
    · rw [List.length_reverse] at ha
      rw [reverse_apply, if_neg (by omega), Function.update_of_ne (by omega), hother a (by omega)]

/-- **Numbers and strings**: `itoa` writes the canonical string of a number, which
`hex_to_pointer` takes back to the number, and takes every other string to its value. -/
theorem itoa_hexToPointer :
    (∀ (num : U64) (str base : ℕ) (m : ByteMem), 2 ≤ base → base ≤ 36 →
      ∃ tests m' w, itoa tests num str base m = some m' ∧ StringAt m' str w ∧
        Represents base num.toNat w ∧
        (∀ a, ¬ (str ≤ a ∧ a ≤ str + w.length) → m' a = m a) ∧
        (base = 16 → w.length + 1 ≤ 17 ∧ hexToPointer str 16 m' = (0, num))) ∧
    ∀ (m : ByteMem) (buffer bufferSize : ℕ) (w : List Byte), StringAt m buffer w →
      (∀ c ∈ w, IsDigit 16 c) → w.length ≤ 16 → w.length ≤ bufferSize →
        (hexToPointer buffer bufferSize m).1 = 0 ∧
          (hexToPointer buffer bufferSize m).2.toNat = value 16 w := by
  refine ⟨fun num str base m hbase hle ↦ ?_,
    fun m buffer bufferSize w hw hdigits hlength hsize ↦ hexToPointer_spec hw hdigits hlength hsize⟩
  obtain ⟨tests, m', hcall, hstring, hother⟩ := itoa_spec num str hbase hle m
  have hrep := represents_numeral hbase hle num.toNat
  refine ⟨tests, m', _, hcall, hstring, hrep, hother, ?_⟩
  rintro rfl
  have hlength := length_numeral_le num
  obtain ⟨hcode, hvalue⟩ := hexToPointer_spec hstring hrep.digits hlength hlength
  refine ⟨Nat.succ_le_succ hlength, Prod.ext hcode (BitVec.toNat_eq.mpr ?_)⟩
  rw [hvalue, hrep.value]

/-- The largest number, in sixteen digits. -/
theorem itoa_hexToPointer_max : ∃ tests m', itoa tests 0xFFFFFFFFFFFFFFFF 0 16 (fun _ ↦ 1) =
    some m' ∧ m' 17 = 1 ∧ hexToPointer 0 16 m' = (0, 0xFFFFFFFFFFFFFFFF) := by
  obtain ⟨tests, m', w, hcall, -, -, hother, hhex⟩ :=
    itoa_hexToPointer.1 0xFFFFFFFFFFFFFFFF 0 16 (fun _ ↦ 1) (by decide) (by decide)
  obtain ⟨hlength, hback⟩ := hhex rfl
  exact ⟨tests, m', hcall, hother 17 (by omega), hback⟩

end Borrrdex
