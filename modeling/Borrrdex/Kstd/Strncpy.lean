import Borrrdex.Basic
import Borrrdex.Lib.FlatMemory
import Mathlib.Tactic

/-!
# The kernel's `strnlen` and `strncpy`

`strncpy` copies bytes until the source is aligned, if the destination then is too, words until one
of them has a null in it, and then bytes again until the null, and fills the rest with nulls.
Whichever loops do the work, it leaves the string and nulls behind it (`strncpy_spec`), which is a
copy if it is called with as many bytes as the string has, the null included (`strncpy_eq_copied`).

What is left to be done by the loops is a `Job`, and what should come out of it is the same before
and after each of them.  The loop on words passes no null, since a byte that is zero and has none
below it borrows (`ne_zero_of_hasZero`).
-/

set_option autoImplicit false

namespace Borrrdex

open FlatMemory

/-- `while(str[i] && maxlen--) i++;`. -/
def strnlenFrom (m : Mem) (str : U64) : ℕ → ℕ → ℕ
  | 0, i => i
  | maxlen + 1, i => if m (str + BitVec.ofNat 64 i) = 0 then i else strnlenFrom m str maxlen (i + 1)

/-- `strnlen`. -/
def strnlen (m : Mem) (str : U64) (maxlen : ℕ) : ℕ := strnlenFrom m str maxlen 0

/-- `memset`. -/
def memset (dst : U64) (c : Byte) : ℕ → Mem → Mem
  | 0, m => m
  | n + 1, m => memset (dst + 1) c n (Function.update m dst c)

/-- `ONES`. -/
def ones : U64 := 0x0101010101010101#64

/-- `HIGHS`. -/
def highs : U64 := 0x8080808080808080#64

/-- `HASZERO`. -/
def hasZero (x : U64) : U64 := (x - ones) &&& ~~~x &&& highs

/-- The variables of `strncpy`, and the memory. -/
structure Copying where
  dst : U64
  src : U64
  max : ℕ
  mem : Mem

/-- `for(; .. && max && (*dst=*src); max--, src++, dst++);`, with what else is tested first. -/
def copyChars (test : U64 → Bool) (dst src : U64) : ℕ → Mem → Copying
  | 0, m => ⟨dst, src, 0, m⟩
  | max + 1, m =>
    if test src then
      if m src ≠ 0 then copyChars test (dst + 1) (src + 1) max (Function.update m dst (m src))
      else ⟨dst, src, max + 1, Function.update m dst (m src)⟩
    else ⟨dst, src, max + 1, m⟩

/-- `for(; max>=sizeof(size_t) && !HASZERO(*ws); max-=sizeof(size_t), ws++, wd++) *wd = *ws;`, with
`words` times eight bytes to go and `rest` more. -/
def copyUntilZero (dst src : U64) (rest : ℕ) : ℕ → Mem → Copying
  | 0, m => ⟨dst, src, rest, m⟩
  | words + 1, m =>
    if hasZero (loadWord m src) = 0 then
      copyUntilZero (dst + 8) (src + 8) rest words (storeWord dst (loadWord m src) m)
    else ⟨dst, src, 8 * (words + 1) + rest, m⟩

/-- `tail: memset(dst, 0, max)`. -/
def Copying.tail (c : Copying) : Mem := memset c.dst 0 c.max c.mem

/-- `strncpy`. -/
def strncpy (dst src : U64) (max : ℕ) (m : Mem) : Mem :=
  if src &&& 7#64 = dst &&& 7#64 then
    let c := copyChars (fun a ↦ a &&& 7#64 != 0#64) dst src max m
    if c.max = 0 ∨ c.mem c.src = 0 then c.tail
    else
      let c := copyUntilZero c.dst c.src (c.max % 8) (c.max / 8) c.mem
      (copyChars (fun _ ↦ true) c.dst c.src c.max c.mem).tail
  else (copyChars (fun _ ↦ true) dst src max m).tail

/-- How many bytes of the source `strncpy` reads.  Of a word with a null in it all are read, also
those behind the null. -/
def strncpyReads (dst src : U64) (max : ℕ) (m : Mem) : ℕ :=
  let byByte (c : Copying) : ℕ :=
    let c' := copyChars (fun _ ↦ true) c.dst c.src c.max c.mem
    max - c'.max + if c'.max = 0 then 0 else 1
  if src &&& 7#64 = dst &&& 7#64 then
    let c := copyChars (fun a ↦ a &&& 7#64 != 0#64) dst src max m
    if c.max = 0 then max
    else if c.mem c.src = 0 then max - c.max + 1
    else
      let c := copyUntilZero c.dst c.src (c.max % 8) (c.max / 8) c.mem
      Nat.max (if 8 ≤ c.max then max - c.max + 8 else 0) (byByte c)
  else byByte ⟨dst, src, max, m⟩

/-! ## The length of a string -/

variable {m : Mem} {a dst src : U64} {w : List Byte} {max : ℕ}

theorem strnlenFrom_eq_min (h : CString m a w) {maxlen i : ℕ} (hi : i ≤ w.length) :
    strnlenFrom m a maxlen i = min w.length (i + maxlen) := by
  induction maxlen generalizing i with
  | zero =>
    rw [strnlenFrom]
    omega
  | succ maxlen ih =>
    rcases hi.eq_or_lt with rfl | hlt
    · rw [strnlenFrom, if_pos h.null]
      omega
    · have hne : m (a + BitVec.ofNat 64 i) ≠ 0 := by
        rw [h.char i hlt]
        exact h.ne_zero _ (List.getElem_mem hlt)
      rw [strnlenFrom, if_neg hne, ih hlt]
      omega

/-- **The length of a string, as far as it is looked for.** -/
theorem strnlen_eq_min (h : CString m a w) (maxlen : ℕ) :
    strnlen m a maxlen = min w.length maxlen := by
  rw [strnlen, strnlenFrom_eq_min h (Nat.zero_le _), Nat.zero_add]

/-- The length of a string that is not too long. -/
theorem strnlen_eq (h : CString m a w) {maxlen : ℕ} (hmax : w.length ≤ maxlen) :
    strnlen m a maxlen = w.length := by
  rw [strnlen_eq_min h, Nat.min_eq_left hmax]

/-! ## Words without a null -/

/-- The lowest byte that is zero borrows, so that `HASZERO` has its highest bit. -/
theorem hasZero_ne_zero {i : ℕ} (hi : i < 8) (hzero : m (a + BitVec.ofNat 64 i) = 0)
    (hne : ∀ j < i, m (a + BitVec.ofNat 64 j) ≠ 0) : hasZero (loadWord m a) ≠ 0 := by
  have hbyte : ∀ j < 8, loadBytes m a 8 / 256 ^ j % 256 = (m (a + BitVec.ofNat 64 j)).toNat :=
    fun j hj ↦ loadBytes_div m a hj
  have hpos : ∀ j < i, 0 < loadBytes m a 8 / 256 ^ j % 256 := fun j hj ↦ by
    rw [hbyte j (by omega)]
    exact Nat.pos_of_ne_zero fun h ↦ hne j hj (BitVec.eq_of_toNat_eq h)
  have hat : loadBytes m a 8 / 256 ^ i % 256 = 0 := by
    rw [hbyte i hi, hzero]
    rfl
  have hlt : loadBytes m a 8 < 2 ^ 64 := loadBytes_lt m a 8
  rw [loadWord]
  generalize loadBytes m a 8 = x at hpos hat hlt
  have hpow : 2 ^ (8 * i + 7) = 256 ^ i * 128 := by
    rw [pow_add, pow_mul]
    rfl
  have hclear : (BitVec.ofNat 64 x).getLsbD (8 * i + 7) = false := by
    rw [← BitVec.testBit_toNat, BitVec.toNat_ofNat, Nat.mod_eq_of_lt hlt,
      Nat.testBit_eq_decide_div_mod_eq, hpow, ← Nat.div_div_eq_div_mul]
    exact decide_eq_false (by omega)
  have hset : (BitVec.ofNat 64 x - ones).getLsbD (8 * i + 7) = true := by
    rw [← BitVec.testBit_toNat, BitVec.toNat_sub, BitVec.toNat_ofNat, Nat.mod_eq_of_lt hlt,
      Nat.testBit_eq_decide_div_mod_eq, ones, BitVec.toNat_ofNat]
    have h0 := hpos 0
    have h1 := hpos 1
    have h2 := hpos 2
    have h3 := hpos 3
    have h4 := hpos 4
    have h5 := hpos 5
    have h6 := hpos 6
    apply decide_eq_true
    interval_cases i <;> norm_num at * <;> omega
  have hhigh : highs.getLsbD (8 * i + 7) = true := by
    interval_cases i <;> decide
  intro hnone
  have hbit : (hasZero (BitVec.ofNat 64 x)).getLsbD (8 * i + 7) = false := by
    rw [hnone]
    exact BitVec.getLsbD_zero
  rw [hasZero, BitVec.getLsbD_and, BitVec.getLsbD_and, BitVec.getLsbD_not, hset, hclear, hhigh,
    decide_eq_true (by omega)] at hbit
  exact absurd hbit (by decide)

/-- The loop on words passes no null. -/
theorem ne_zero_of_hasZero (h : hasZero (loadWord m a) = 0) :
    ∀ i < 8, m (a + BitVec.ofNat 64 i) ≠ 0 := by
  intro i
  induction i using Nat.strong_induction_on with
  | _ i ih =>
    intro hi hzero
    exact hasZero_ne_zero hi hzero (fun j hj ↦ ih j hj (hj.trans hi)) h

/-! ## The copy -/

/-- The first `len` of `max` bytes are a string: the null that ends it is the next one, if there is
a next one. -/
structure StringIn (m : Mem) (src : U64) (max len : ℕ) : Prop where
  le : len ≤ max
  ne_zero : ∀ i < len, m (src + BitVec.ofNat 64 i) ≠ 0
  null : len < max → m (src + BitVec.ofNat 64 len) = 0

/-- There always are some. -/
theorem stringIn_strnlen (m : Mem) (src : U64) (max : ℕ) :
    StringIn m src max (strnlen m src max) := by
  have hfrom : ∀ k i, (∀ j < i, m (src + BitVec.ofNat 64 j) ≠ 0) →
      StringIn m src (i + k) (strnlenFrom m src k i) := by
    intro k
    induction k with
    | zero => exact fun i hne ↦ ⟨le_rfl, hne, fun hlt ↦ absurd hlt (Nat.lt_irrefl i)⟩
    | succ k ih =>
      intro i hne
      rw [strnlenFrom]
      split
      · next hnull => exact ⟨Nat.le_add_right .., hne, fun _ ↦ hnull⟩
      · next hchar =>
        rw [Nat.add_comm k 1, ← Nat.add_assoc]
        refine ih (i + 1) fun j hj ↦ ?_
        rcases Nat.lt_succ_iff_lt_or_eq.mp hj with hlt | rfl
        exacts [hne j hlt, hchar]
  have hall := hfrom max 0 fun j hj ↦ absurd hj (Nat.not_lt_zero j)
  rwa [Nat.zero_add] at hall

/-- No byte of a string, the null at its end included, is one of the `max` that are written. -/
def StringApart (dst src : U64) (max len : ℕ) : Prop :=
  ∀ j ≤ len, j < max → max ≤ (src + BitVec.ofNat 64 j - dst).toNat

/-- What is left to be copied: nothing is read after it is written. -/
structure Job (c : Copying) (len : ℕ) : Prop where
  string : StringIn c.mem c.src c.max len
  apart : StringApart c.dst c.src c.max len
  lt : c.max < 2 ^ 64

/-- What should come out of it: the string, and nulls behind it. -/
def Copying.goal (c : Copying) (len : ℕ) : Mem := fun a ↦
  if (a - c.dst).toNat < len then c.mem (c.src + (a - c.dst))
  else if (a - c.dst).toNat < c.max then 0
  else c.mem a

/-- So many bytes have been copied. -/
def Copying.advance (c : Copying) (k : ℕ) : Copying where
  dst := c.dst + BitVec.ofNat 64 k
  src := c.src + BitVec.ofNat 64 k
  max := c.max - k
  mem := copied c.dst c.src k c.mem

variable {c : Copying} {len k : ℕ}

theorem Copying.advance_src_add (c : Copying) (k j : ℕ) :
    (c.advance k).src + BitVec.ofNat 64 j = c.src + BitVec.ofNat 64 (k + j) := by
  rw [Copying.advance, BitVec.ofNat_add, add_assoc]

/-- The string is not written. -/
theorem Job.advance_mem (h : Job c len) {j : ℕ} (hj : k + j ≤ len)
    (hmax : k + j < c.max) :
    (c.advance k).mem ((c.advance k).src + BitVec.ofNat 64 j) =
      c.mem (c.src + BitVec.ofNat 64 (k + j)) := by
  have hle := h.apart (k + j) hj hmax
  rw [Copying.advance_src_add]
  exact if_neg (by omega)

/-- How far behind `dst` something is, and how far behind what is left of it. -/
theorem toNat_sub_advance (c : Copying) (hk : k < 2 ^ 64) (a : U64) :
    (a - (c.advance k).dst).toNat = (2 ^ 64 - k + (a - c.dst).toNat) % 2 ^ 64 := by
  have hoff : a - (c.advance k).dst = a - c.dst - BitVec.ofNat 64 k := sub_add_eq_sub_sub ..
  rw [hoff, BitVec.toNat_sub, BitVec.toNat_ofNat, Nat.mod_eq_of_lt hk]

theorem Job.goal_advance (h : Job c len) (hk : k ≤ len) :
    (c.advance k).goal (len - k) = c.goal len := by
  have hle := h.string.le
  have hlt := h.lt
  funext a
  have hoff := toNat_sub_advance c (k := k) (by omega) a
  have hlt' := (a - c.dst).isLt
  have haddr : (c.advance k).src + (a - (c.advance k).dst) = c.src + (a - c.dst) := by
    change c.src + BitVec.ofNat 64 k + (a - (c.dst + BitVec.ofNat 64 k)) = c.src + (a - c.dst)
    abel
  rw [Copying.goal, Copying.goal, hoff, haddr]
  have hmax : (c.advance k).max = c.max - k := rfl
  have hmem : ∀ x, (c.advance k).mem x = copied c.dst c.src k c.mem x := fun _ ↦ rfl
  rw [hmax, hmem, hmem]
  by_cases hfirst : (a - c.dst).toNat < k
  · rw [if_neg (by omega), if_neg (by omega), copied, if_pos hfirst, if_pos (by omega)]
  · by_cases hstring : (a - c.dst).toNat < len
    · have hsrc := h.apart (a - c.dst).toNat hstring.le (by omega)
      rw [BitVec.ofNat_toNat, BitVec.setWidth_eq] at hsrc
      rw [if_pos (by omega), if_pos hstring, copied, if_neg (by omega)]
    · rw [if_neg (by omega), if_neg hstring, copied, if_neg hfirst]
      by_cases hpad : (a - c.dst).toNat < c.max
      · rw [if_pos (by omega), if_pos hpad]
      · rw [if_neg (by omega), if_neg hpad]

/-- **A part of the job leaves a job with the same goal.** -/
theorem Job.advance (h : Job c len) (hk : k ≤ len) :
    Job (c.advance k) (len - k) ∧ (c.advance k).goal (len - k) = c.goal len := by
  have hle := h.string.le
  have hlt := h.lt
  have hmax : (c.advance k).max = c.max - k := rfl
  refine ⟨⟨⟨?_, fun i hi ↦ ?_, fun hnull ↦ ?_⟩, fun j hj hjmax ↦ ?_, ?_⟩, h.goal_advance hk⟩
  · omega
  · rw [h.advance_mem (by omega) (by omega)]
    exact h.string.ne_zero (k + i) (by omega)
  · rw [h.advance_mem (by omega) (by omega), Nat.add_sub_cancel' hk]
    exact h.string.null (by omega)
  · rw [toNat_sub_advance c (by omega), Copying.advance_src_add]
    have hkj := h.apart (k + j) (by omega) (by omega)
    have hlt' := (c.src + BitVec.ofNat 64 (k + j) - c.dst).isLt
    omega
  · omega

/-- Where a loop on bytes stops for good. -/
def Copying.Done (c : Copying) : Prop := c.max = 0 ∨ c.mem c.src = 0

/-- With a null in front there is nothing left but the nulls. -/
theorem Job.eq_zero_of_done (h : Job c len) (hdone : c.Done) : len = 0 := by
  have hle := h.string.le
  by_contra hpos
  rcases hdone with hzero | hnull
  · omega
  · have hne := h.string.ne_zero 0 (Nat.pos_of_ne_zero hpos)
    rw [BitVec.add_zero] at hne
    exact hne hnull

/-- A byte that is there and is not a null is one of the string. -/
theorem Job.pos (h : Job c len) (hmax : 0 < c.max) (hne : c.mem c.src ≠ 0) : 0 < len := by
  by_contra hzero
  obtain rfl : len = 0 := by omega
  have hnull := h.string.null hmax
  rw [BitVec.add_zero] at hnull
  exact hne hnull

/-- The null that ends the string is written at once, and will be written again. -/
theorem Job.update (h : Job c 0) (hmax : 0 < c.max) :
    Job { c with mem := Function.update c.mem c.dst 0 } 0 ∧
      Copying.goal { c with mem := Function.update c.mem c.dst 0 } 0 = c.goal 0 := by
  have hsrc : c.src ≠ c.dst := by
    intro heq
    have hle := h.apart 0 le_rfl hmax
    rw [BitVec.add_zero, heq, sub_self] at hle
    exact absurd hle (by rw [show (0 : U64).toNat = 0 from rfl]; omega)
  refine ⟨⟨⟨h.string.le, fun i hi ↦ absurd hi (Nat.not_lt_zero i), fun hlt ↦ ?_⟩, h.apart, h.lt⟩,
    funext fun a ↦ ?_⟩
  · have hnull := h.string.null hlt
    rw [BitVec.add_zero] at hnull ⊢
    exact (Function.update_of_ne hsrc _ _).trans hnull
  · rw [Copying.goal, Copying.goal, if_neg (Nat.not_lt_zero _), if_neg (Nat.not_lt_zero _)]
    dsimp only
    split
    · rfl
    · next hout =>
      refine Function.update_of_ne ?_ _ _
      rintro rfl
      rw [sub_self] at hout
      exact hout hmax

theorem Job.copyChars (test : U64 → Bool) (h : Job c len) :
    ∃ len', Job (copyChars test c.dst c.src c.max c.mem) len' ∧
      (copyChars test c.dst c.src c.max c.mem).goal len' = c.goal len ∧
      ((∀ a, test a = true) → (copyChars test c.dst c.src c.max c.mem).Done) := by
  obtain ⟨dst, src, max, m⟩ := c
  induction max generalizing dst src m len with
  | zero => exact ⟨len, h, rfl, fun _ ↦ .inl rfl⟩
  | succ max ih =>
    rw [Borrrdex.copyChars]
    dsimp only
    split
    · split
      · next hne =>
        obtain ⟨hjob, hgoal⟩ := h.advance (h.pos (Nat.succ_pos max) hne)
        rw [Copying.advance] at hjob hgoal
        dsimp only at hjob hgoal
        rw [Nat.add_sub_cancel, copied_one] at hjob hgoal
        obtain ⟨len', hjob', hgoal', hdone⟩ := ih _ _ _ hjob
        exact ⟨len', hjob', hgoal'.trans hgoal, hdone⟩
      · next hnull =>
        rw [not_not] at hnull
        obtain rfl := h.eq_zero_of_done (.inr hnull)
        obtain ⟨hjob, hgoal⟩ := h.update (Nat.succ_pos max)
        rw [hnull]
        refine ⟨0, hjob, hgoal, fun _ ↦ .inr ?_⟩
        have hfirst := hjob.string.null (Nat.succ_pos max)
        rwa [BitVec.add_zero] at hfirst
    · next htest => exact ⟨len, h, rfl, fun hall ↦ absurd (hall src) htest⟩

theorem Job.copyUntilZero (h : Job c len) :
    ∃ len', Job (copyUntilZero c.dst c.src (c.max % 8) (c.max / 8) c.mem) len' ∧
      (copyUntilZero c.dst c.src (c.max % 8) (c.max / 8) c.mem).goal len' = c.goal len := by
  have hmax : 8 * (c.max / 8) + c.max % 8 = c.max := Nat.div_add_mod ..
  generalize c.max % 8 = rest at hmax ⊢
  generalize c.max / 8 = words at hmax ⊢
  obtain ⟨dst, src, max, m⟩ := c
  obtain rfl : 8 * words + rest = max := hmax
  dsimp only
  induction words generalizing dst src m len with
  | zero =>
    rw [Nat.mul_zero, Nat.zero_add] at h ⊢
    exact ⟨len, h, rfl⟩
  | succ words ih =>
    rw [Borrrdex.copyUntilZero]
    split
    · next hzero =>
      have hlen : 8 ≤ len := by
        by_contra hlt
        exact ne_zero_of_hasZero hzero len (by omega) (h.string.null (by dsimp only; omega))
      obtain ⟨hjob, hgoal⟩ := h.advance hlen
      have hrest : 8 * (words + 1) + rest - 8 = 8 * words + rest := by omega
      rw [Copying.advance] at hjob hgoal
      dsimp only at hjob hgoal
      rw [hrest, ← storeWord_loadWord] at hjob hgoal
      obtain ⟨len', hjob', hgoal'⟩ := ih _ _ _ hjob
      exact ⟨len', hjob', hgoal'.trans hgoal⟩
    · exact ⟨len, h, rfl⟩

theorem memset_apply (dst : U64) (b : Byte) {n : ℕ} (hn : n < 2 ^ 64) (m : Mem) (a : U64) :
    memset dst b n m a = if (a - dst).toNat < n then b else m a := by
  induction n generalizing dst m with
  | zero => rw [memset, if_neg (Nat.not_lt_zero _)]
  | succ n ih =>
    have hoff : a - (dst + 1) = a - dst - 1 := sub_add_eq_sub_sub ..
    rw [memset, ih (dst + 1) (by omega), hoff, Function.update_apply]
    by_cases ha : a = dst
    · subst ha
      rw [sub_self, if_pos rfl, ite_self]
      exact (if_pos (Nat.succ_pos n)).symm
    · have hpos : (a - dst).toNat ≠ 0 :=
        fun hzero ↦ ha (sub_eq_zero.mp (BitVec.eq_of_toNat_eq hzero))
      have hsub : (a - dst - 1).toNat = (a - dst).toNat - 1 := by
        have hlt := (a - dst).isLt
        rw [BitVec.toNat_sub, show (1 : U64).toNat = 1 from rfl]
        omega
      rw [hsub, if_neg ha]
      exact if_congr (by omega) rfl rfl

/-- When the loops are done only the nulls are left. -/
theorem Job.tail (h : Job c len) (hdone : c.Done) : c.tail = c.goal len := by
  obtain rfl := h.eq_zero_of_done hdone
  funext a
  rw [Copying.tail, memset_apply _ _ h.lt, Copying.goal, if_neg (Nat.not_lt_zero _)]

/-- **What `strncpy` leaves**, whichever of the loops do the work. -/
theorem Job.strncpy (h : Job c len) : strncpy c.dst c.src c.max c.mem = c.goal len := by
  rw [Borrrdex.strncpy]
  split
  · obtain ⟨_, hchars, hgoal, -⟩ := h.copyChars fun a ↦ a &&& 7#64 != 0#64
    dsimp only
    split
    · next hdone => exact (hchars.tail hdone).trans hgoal
    · obtain ⟨_, hwords, hgoal'⟩ := hchars.copyUntilZero
      obtain ⟨_, hrest, hgoal'', hdone⟩ := hwords.copyChars fun _ ↦ true
      exact (hrest.tail (hdone fun _ ↦ rfl)).trans (hgoal''.trans (hgoal'.trans hgoal))
  · obtain ⟨_, hchars, hgoal, hdone⟩ := h.copyChars fun _ ↦ true
    exact (hchars.tail (hdone fun _ ↦ rfl)).trans hgoal

/-- The loop on bytes alone leaves the same. -/
theorem Job.copyBytes (h : Job c len) :
    (Borrrdex.copyChars (fun _ ↦ true) c.dst c.src c.max c.mem).tail = c.goal len := by
  obtain ⟨_, hchars, hgoal, hdone⟩ := h.copyChars fun _ ↦ true
  exact (hchars.tail (hdone fun _ ↦ rfl)).trans hgoal

/-- **A copy**, of as many bytes as the string has with its null. -/
theorem strncpy_eq_copied (hapart : Apart dst src max) (hlt : max < 2 ^ 64)
    (hne : ∀ i, i + 1 < max → m (src + BitVec.ofNat 64 i) ≠ 0) :
    strncpy dst src max m = copied dst src max m := by
  have hstring := stringIn_strnlen m src max
  have hjob : Job ⟨dst, src, max, m⟩ (strnlen m src max) :=
    ⟨hstring, fun j _ hj ↦ hapart j hj, hlt⟩
  refine hjob.strncpy.trans (funext fun a ↦ ?_)
  rw [Copying.goal, copied]
  dsimp only
  have hle := hstring.le
  by_cases hin : (a - dst).toNat < strnlen m src max
  · rw [if_pos hin, if_pos (by omega)]
  · rw [if_neg hin]
    refine if_ctx_congr Iff.rfl (fun hlast ↦ ?_) fun _ ↦ rfl
    -- the null at the end
    have hnull := hstring.null (by omega)
    have hend : ¬ strnlen m src max + 1 < max := fun h ↦ hne _ h hnull
    have heq : strnlen m src max = (a - dst).toNat := by omega
    rw [heq, BitVec.ofNat_toNat, BitVec.setWidth_eq] at hnull
    exact hnull.symm

/-- **`strncpy` copies a string and fills up with nulls**, as its loop on bytes would. -/
theorem strncpy_spec {len : ℕ} (hstring : StringIn m src max len)
    (hapart : StringApart dst src max len) (hlt : max < 2 ^ 64) :
    (∀ i < max, strncpy dst src max m (dst + BitVec.ofNat 64 i) =
        if i < len then m (src + BitVec.ofNat 64 i) else 0) ∧
      (∀ a, max ≤ (a - dst).toNat → strncpy dst src max m a = m a) ∧
      strncpy dst src max m = (copyChars (fun _ ↦ true) dst src max m).tail := by
  have hjob : Job ⟨dst, src, max, m⟩ len := ⟨hstring, hapart, hlt⟩
  have hgoal : strncpy dst src max m = Copying.goal ⟨dst, src, max, m⟩ len := hjob.strncpy
  have hle := hstring.le
  refine ⟨fun i hi ↦ ?_, fun a ha ↦ ?_, hgoal.trans hjob.copyBytes.symm⟩
  · have hoff : dst + BitVec.ofNat 64 i - dst = BitVec.ofNat 64 i := add_sub_cancel_left ..
    rw [hgoal, Copying.goal, hoff, BitVec.toNat_ofNat, Nat.mod_eq_of_lt (by omega), if_pos hi]
  · rw [hgoal, Copying.goal]
    dsimp only
    rw [if_neg (by omega), if_neg (by omega)]

/-- Nineteen letters, in a memory of nulls. -/
def lettersAt (a : U64) : Mem := fun x ↦ if (x - a).toNat < 19 then 0x61 else 0

/-- Seven letters, one word and four letters are copied, and five nulls are written behind them. -/
theorem strncpy_spec_letters :
    (∀ i < 24, strncpy 0x2001 0x1001 24 (lettersAt 0x1001) (0x2001 + BitVec.ofNat 64 i) =
        if i < 19 then lettersAt 0x1001 (0x1001 + BitVec.ofNat 64 i) else 0) ∧
      (∀ a : U64, 24 ≤ (a - 0x2001).toNat →
        strncpy 0x2001 0x1001 24 (lettersAt 0x1001) a = lettersAt 0x1001 a) ∧
      strncpy 0x2001 0x1001 24 (lettersAt 0x1001) =
        (copyChars (fun _ ↦ true) 0x2001 0x1001 24 (lettersAt 0x1001)).tail := by
  have hstring : StringIn (lettersAt 0x1001) 0x1001 24 19 :=
    ⟨by decide, by decide, fun _ ↦ by decide⟩
  exact strncpy_spec hstring (by intro j hj; interval_cases j <;> decide) (by decide)

end Borrrdex
