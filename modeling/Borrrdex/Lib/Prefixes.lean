import Mathlib.Data.List.Range
import Mathlib.Logic.Function.Basic
import Mathlib.Tactic.Common

/-!
# The beginning of a sequence

`prefixOf b n` are the first `n` values of `b`, as a list: what a program reads that is given a
pointer and a count.
-/

set_option autoImplicit false

universe u

/-- The first `n` values. -/
def prefixOf {α : Type u} (b : ℕ → α) (n : ℕ) : List α := (List.range n).map b

variable {α : Type u} {b b' : ℕ → α} {n : ℕ}

@[simp] theorem length_prefixOf (b : ℕ → α) (n : ℕ) : (prefixOf b n).length = n := by
  simp [prefixOf]

@[simp] theorem prefixOf_zero (b : ℕ → α) : prefixOf b 0 = [] := rfl

theorem prefixOf_succ (b : ℕ → α) (n : ℕ) : prefixOf b (n + 1) = prefixOf b n ++ [b n] := by
  rw [prefixOf, List.range_succ, List.map_append, List.map_singleton, prefixOf]

theorem prefixOf_cons (b : ℕ → α) (n : ℕ) :
    prefixOf b (n + 1) = b 0 :: prefixOf (fun i ↦ b (i + 1)) n := by
  simp [prefixOf, List.range_succ_eq_map]

theorem take_prefixOf (b : ℕ → α) (n m : ℕ) : (prefixOf b n).take m = prefixOf b (min m n) := by
  rw [prefixOf, prefixOf, ← List.map_take, List.take_range]

theorem drop_prefixOf (b : ℕ → α) (n m : ℕ) :
    (prefixOf b n).drop m = prefixOf (fun i ↦ b (m + i)) (n - m) :=
  List.ext_getElem (by simp) fun i _ _ ↦ by simp [prefixOf]

theorem prefixOf_congr (h : ∀ i < n, b i = b' i) : prefixOf b n = prefixOf b' n :=
  List.map_congr_left fun i hi ↦ h i (List.mem_range.mp hi)

theorem mem_prefixOf {x : α} : x ∈ prefixOf b n ↔ ∃ i < n, b i = x := by
  simp [prefixOf]

/-- Writing behind what has been written. -/
theorem prefixOf_update (b : ℕ → α) (n : ℕ) (x : α) :
    prefixOf (Function.update b n x) (n + 1) = prefixOf b n ++ [x] := by
  rw [prefixOf_succ, Function.update_self]
  congr 1
  exact prefixOf_congr fun i hi ↦ Function.update_of_ne hi.ne _ _
