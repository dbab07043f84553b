import Borrrdex.Basic
import Mathlib.Tactic

/-!
# The kernel's `strncmp`

It compares up to a number of characters, or up to the null that both strings have at one place, so
on strings in memory it says whether their first `max` characters are the same
(`strncmp_eq_zero_iff`); the other bytes may be anything.
-/

set_option autoImplicit false

namespace Borrrdex

/-- `strncmp`, from an index on: the result, and how many characters have been read. -/
def strncmpFrom (a b : ℕ → Byte) : ℕ → ℕ → ℤ × ℕ
  | 0, i => (0, i)
  | max + 1, i =>
    if a i = 0 ∧ b i = 0 then (0, i + 1)
    else if a i < b i then (-1, i + 1)
    else if a i > b i then (1, i + 1)
    else strncmpFrom a b max (i + 1)

/-- `strncmp`. -/
def strncmp (a b : ℕ → Byte) (max : ℕ) : ℤ × ℕ := strncmpFrom a b max 0

/-- Up to the end of a string without nulls `strncmp` is equality. -/
theorem strncmpFrom_eq_zero_iff {a b : ℕ → Byte} {max i : ℕ} (ha : ∀ k < max, a (i + k) ≠ 0) :
    (strncmpFrom a b max i).1 = 0 ↔ ∀ k < max, a (i + k) = b (i + k) := by
  induction max generalizing i with
  | zero => simp [strncmpFrom]
  | succ max ih =>
    have hfirst : a i ≠ 0 := ha 0 (Nat.succ_pos _)
    have hrest := ih (i := i + 1) fun k hk ↦ by
      rw [Nat.add_assoc, Nat.add_comm 1]
      exact ha (k + 1) (by omega)
    have hall : (∀ k < max + 1, a (i + k) = b (i + k)) ↔
        a i = b i ∧ ∀ k < max, a (i + 1 + k) = b (i + 1 + k) := by
      constructor
      · refine fun h ↦ ⟨h 0 (Nat.succ_pos _), fun k hk ↦ ?_⟩
        rw [Nat.add_assoc, Nat.add_comm 1]
        exact h (k + 1) (by omega)
      · rintro ⟨h0, h⟩ k hk
        cases k with
        | zero => exact h0
        | succ k =>
          rw [← Nat.add_assoc, Nat.add_right_comm]
          exact h k (by omega)
    rw [strncmpFrom, if_neg (fun h ↦ hfirst h.1), hall, ← hrest]
    by_cases heq : a i = b i
    · have hirrefl : ¬ b i < b i := BitVec.lt_irrefl _
      rw [heq, if_neg hirrefl, if_neg (show ¬ b i > b i from hirrefl)]
      exact ⟨fun h ↦ ⟨rfl, h⟩, fun h ↦ h.2⟩
    · refine iff_of_false ?_ fun h ↦ heq h.1
      have hne : (a i).toNat ≠ (b i).toNat := fun h ↦ heq (BitVec.eq_of_toNat_eq h)
      rcases Nat.lt_or_gt_of_ne hne with hlt | hgt
      · rw [if_pos (BitVec.lt_def.mpr hlt)]
        exact Int.negSucc_ne_zero 0
      · rw [if_neg (fun h ↦ absurd (BitVec.lt_def.mp h) (not_lt.mpr hgt.le)),
          if_pos (show a i > b i from BitVec.lt_def.mpr hgt)]
        exact one_ne_zero

/-- Of two strings, only the characters before the first null of each are compared. -/
theorem strncmpFrom_strings {u w : List Byte} (hu : ∀ c ∈ u, c ≠ 0) (hw : ∀ c ∈ w, c ≠ 0)
    {a b : ℕ → Byte} {max i : ℕ} (ha : ∀ k ≤ u.length, a (i + k) = u.getD k 0)
    (hb : ∀ k ≤ w.length, b (i + k) = w.getD k 0) :
    (strncmpFrom a b max i).1 = 0 ↔ u.take max = w.take max := by
  induction max generalizing u w i with
  | zero => simp [strncmpFrom]
  | succ max ih =>
    have ha₀ := ha 0 (Nat.zero_le _)
    have hb₀ := hb 0 (Nat.zero_le _)
    rw [Nat.add_zero] at ha₀ hb₀
    rw [strncmpFrom, ha₀, hb₀]
    cases u with
    | nil =>
      cases w with
      | nil => simp
      | cons d w =>
        have hd : d ≠ 0 := hw d List.mem_cons_self
        have hlt : (0 : Byte) < d := by
          rw [BitVec.lt_def]
          exact Nat.pos_of_ne_zero fun h ↦ hd (BitVec.eq_of_toNat_eq h)
        rw [List.getD_nil, List.getD_cons_zero, if_neg fun h ↦ hd h.2, if_pos hlt]
        simp
    | cons c u =>
      have hc : c ≠ 0 := hu c List.mem_cons_self
      rw [List.getD_cons_zero, if_neg fun h ↦ hc h.1]
      cases w with
      | nil =>
        have hlt : (0 : Byte) < c := by
          rw [BitVec.lt_def]
          exact Nat.pos_of_ne_zero fun h ↦ hc (BitVec.eq_of_toNat_eq h)
        rw [List.getD_nil, if_neg (fun h ↦ absurd (BitVec.lt_def.mp h) (Nat.not_lt_zero _)),
          if_pos hlt]
        simp
      | cons d w =>
        rw [List.getD_cons_zero, List.take_succ_cons, List.take_succ_cons, List.cons.injEq]
        by_cases heq : c = d
        · have hrest := ih (i := i + 1) (fun x hx ↦ hu x (List.mem_cons_of_mem c hx))
            (fun x hx ↦ hw x (List.mem_cons_of_mem d hx))
            (fun k hk ↦ by
              rw [Nat.add_assoc, Nat.add_comm 1, ha (k + 1) (by simpa using hk),
                List.getD_cons_succ])
            (fun k hk ↦ by
              rw [Nat.add_assoc, Nat.add_comm 1, hb (k + 1) (by simpa using hk),
                List.getD_cons_succ])
          have hirrefl : ¬ d < d := BitVec.lt_irrefl _
          rw [heq, if_neg hirrefl, if_neg (show ¬ d > d from hirrefl), hrest]
          exact ⟨fun h ↦ ⟨rfl, h⟩, fun h ↦ h.2⟩
        · refine iff_of_false ?_ fun h ↦ heq h.1
          have hne : c.toNat ≠ d.toNat := fun h ↦ heq (BitVec.eq_of_toNat_eq h)
          rcases Nat.lt_or_gt_of_ne hne with hlt | hgt
          · rw [if_pos (BitVec.lt_def.mpr hlt)]
            exact Int.negSucc_ne_zero 0
          · rw [if_neg (fun h ↦ absurd (BitVec.lt_def.mp h) (not_lt.mpr hgt.le)),
              if_pos (show c > d from BitVec.lt_def.mpr hgt)]
            exact one_ne_zero

/-- A string, as it is read: nulls come behind it. -/
def terminated (w : List Byte) (i : ℕ) : Byte := w.getD i 0

/-- **What `strncmp` says of two strings.** -/
theorem strncmp_eq_zero_iff {u w : List Byte} (hu : ∀ c ∈ u, c ≠ 0) (hw : ∀ c ∈ w, c ≠ 0)
    (max : ℕ) : (strncmp (terminated u) (terminated w) max).1 = 0 ↔ u.take max = w.take max :=
  strncmpFrom_strings hu hw (fun k _ ↦ congrArg _ (Nat.zero_add k))
    fun k _ ↦ congrArg _ (Nat.zero_add k)

end Borrrdex
