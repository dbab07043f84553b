import Mathlib.Logic.Function.Basic

/-!
# Bitmaps packed into machine words

A bitmap is a table of `w`-bit words, bit `n` being bit `n % w` of word `n / w`.  Programs change
one by OR-ing or AND-ing a one-bit mask into a word; everything a proof wants to know about that
is which *bits* of the table it changes.  The two halves of this file are those facts for `set`
and `clear`, and the reading of a word as the block of bits it holds: a word of ones has none
clear, and `firstClear` finds the least one that is.
-/

set_option autoImplicit false

namespace Bitmap

variable {w : Nat}

/-- Bit `n` of the bitmap. -/
def bit (m : Nat → BitVec w) (n : Nat) : Bool := (m (n / w)).getLsbD (n % w)

/-- The word with only bit `j` set. -/
def mask (w j : Nat) : BitVec w := 1#w <<< j

/-- Set bit `n`, by OR-ing a mask into its word. -/
def set (m : Nat → BitVec w) (n : Nat) : Nat → BitVec w :=
  Function.update m (n / w) (m (n / w) ||| mask w (n % w))

/-- Clear bit `n`, by AND-ing the complement of a mask into its word. -/
def clear (m : Nat → BitVec w) (n : Nat) : Nat → BitVec w :=
  Function.update m (n / w) (m (n / w) &&& ~~~ mask w (n % w))

theorem getLsbD_mask {j k : Nat} (hj : j < w) : (mask w j).getLsbD k = decide (k = j) := by
  rw [mask, BitVec.getLsbD_shiftLeft, BitVec.getLsbD_one]
  by_cases hkj : k = j
  · subst hkj
    have hw : 0 < w := by omega
    simp [hj, hw]
  · simp only [hkj, decide_false]
    by_cases h1 : k < j
    · simp [h1]
    · have h2 : ¬k - j = 0 := by omega
      simp [h2]

/-- Two bit numbers with the same word and the same offset are the same. -/
theorem eq_of_div_mod {n k : Nat} (hd : k / w = n / w) (hm : k % w = n % w) : k = n := by
  rw [← Nat.div_add_mod k w, ← Nat.div_add_mod n w, hd, hm]

/-- **Setting** a bit changes that bit alone. -/
theorem bit_set (hw : 0 < w) (m : Nat → BitVec w) (n k : Nat) :
    bit (set m n) k = (bit m k || decide (k = n)) := by
  rw [bit, bit, set]
  by_cases hd : k / w = n / w
  · have hkn : k % w = n % w ↔ k = n := ⟨eq_of_div_mod hd, fun h ↦ by rw [h]⟩
    rw [hd, Function.update_self, BitVec.getLsbD_or, getLsbD_mask (Nat.mod_lt n hw)]
    simp only [hkn]
  · have hkn : k ≠ n := fun h ↦ hd (by rw [h])
    rw [Function.update_of_ne hd]
    simp [hkn]

/-- **Clearing** a bit changes that bit alone. -/
theorem bit_clear (hw : 0 < w) (m : Nat → BitVec w) (n k : Nat) :
    bit (clear m n) k = (bit m k && !decide (k = n)) := by
  rw [bit, bit, clear]
  by_cases hd : k / w = n / w
  · have hkn : k % w = n % w ↔ k = n := ⟨eq_of_div_mod hd, fun h ↦ by rw [h]⟩
    rw [hd, Function.update_self, BitVec.getLsbD_and, BitVec.getLsbD_not,
      getLsbD_mask (Nat.mod_lt n hw)]
    simp only [hkn, Nat.mod_lt k hw, decide_true, Bool.true_and]
  · have hkn : k ≠ n := fun h ↦ hd (by rw [h])
    rw [Function.update_of_ne hd]
    simp [hkn]

/-- The bits of word `i` are the `w` bits from `i * w` on. -/
theorem bit_mul_add (m : Nat → BitVec w) (i : Nat) {j : Nat} (hj : j < w) :
    bit m (i * w + j) = (m i).getLsbD j := by
  rw [bit, Nat.add_comm, Nat.add_mul_div_right _ _ (by omega), Nat.div_eq_of_lt hj,
    Nat.add_mul_mod_self_right, Nat.mod_eq_of_lt hj, Nat.zero_add]

/-! ## The bits of one word -/

/-- The least clear bit of a word, if it has one. -/
def firstClear (x : BitVec w) : Option Nat :=
  (List.range w).find? fun j ↦ x &&& mask w j == 0#w

theorem and_mask_beq_zero {x : BitVec w} {j : Nat} (hj : j < w) :
    (x &&& mask w j == 0#w) = !x.getLsbD j := by
  rw [Bool.eq_iff_iff, beq_iff_eq, Bool.not_eq_true']
  constructor
  · intro h
    have hb := congrArg (fun y ↦ BitVec.getLsbD y j) h
    simpa [getLsbD_mask hj] using hb
  · intro h
    refine BitVec.eq_of_getLsbD_eq fun k hk ↦ ?_
    rw [BitVec.getLsbD_and, getLsbD_mask hj, BitVec.getLsbD_zero]
    by_cases hkj : k = j
    · simp [hkj, h]
    · simp [hkj]

theorem firstClear_eq_some {x : BitVec w} {j : Nat} :
    firstClear x = some j ↔ j < w ∧ x.getLsbD j = false ∧ ∀ k < j, x.getLsbD k = true := by
  rw [firstClear, List.find?_range_eq_some]
  constructor
  · rintro ⟨hp, hj, hlt⟩
    rw [List.mem_range] at hj
    rw [and_mask_beq_zero hj, Bool.not_eq_true'] at hp
    refine ⟨hj, hp, fun k hk ↦ ?_⟩
    have h := hlt k hk
    rwa [and_mask_beq_zero (by omega), Bool.not_not] at h
  · rintro ⟨hj, hp, hlt⟩
    refine ⟨by rw [and_mask_beq_zero hj, hp]; rfl, List.mem_range.mpr hj, fun k hk ↦ ?_⟩
    rw [and_mask_beq_zero (by omega), hlt k hk]
    rfl

/-- A word that is not all ones has a clear bit. -/
theorem firstClear_isSome {x : BitVec w} (hx : x ≠ BitVec.allOnes w) : (firstClear x).isSome := by
  by_contra hnone
  rw [Option.not_isSome_iff_eq_none, firstClear, List.find?_eq_none] at hnone
  refine hx (BitVec.eq_of_getLsbD_eq fun j hj ↦ ?_)
  have h := hnone j (List.mem_range.mpr hj)
  rw [and_mask_beq_zero hj] at h
  simpa [hj] using h

/-- The first clear bit of word `i`, as a bit of the bitmap: it is clear, and every bit of the
word before it is set. -/
theorem bit_of_firstClear {m : Nat → BitVec w} {i j : Nat} (h : firstClear (m i) = some j) :
    bit m (i * w + j) = false ∧ ∀ n, i * w ≤ n → n < i * w + j → bit m n = true := by
  obtain ⟨hj, hclear, hbefore⟩ := firstClear_eq_some.mp h
  refine ⟨by rw [bit_mul_add m i hj, hclear], fun n hlo hhi ↦ ?_⟩
  obtain ⟨k, rfl⟩ := Nat.exists_eq_add_of_le hlo
  rw [bit_mul_add m i (by omega)]
  exact hbefore k (by omega)

/-- Every bit of a word of ones is set. -/
theorem bit_of_eq_allOnes {m : Nat → BitVec w} {i n : Nat} (h : m i = BitVec.allOnes w)
    (hlo : i * w ≤ n) (hhi : n < (i + 1) * w) : bit m n = true := by
  rw [Nat.add_mul, Nat.one_mul] at hhi
  obtain ⟨k, rfl⟩ := Nat.exists_eq_add_of_le hlo
  rw [bit_mul_add m i (by omega), h, BitVec.getLsbD_allOnes, decide_eq_true_eq]
  omega

end Bitmap
