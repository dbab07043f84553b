import Borrrdex.Lib.Prefixes
import Mathlib.Data.Nat.ModEq

/-!
# Rings that hold the end of a history

A ring of `cap` cells `Records` a history if each of the last `cap` items is in the cell whose index
is the item's own modulo `cap`.  Items that are put where the history ends, without passing the end
of the ring, keep it so (`Records.write`), and `Records.recent_eq` has the last items, the oldest
first, as what the cells hold from there on.
-/

set_option autoImplicit false

universe u

variable {α : Type u}

/-- The last `cap` items. -/
def recent (cap : ℕ) (history : List α) : List α := history.drop (history.length - cap)

theorem length_recent (cap : ℕ) (history : List α) :
    (recent cap history).length = min cap history.length := by
  rw [recent, List.length_drop]
  omega

/-- A run of cells, written over. -/
def overwrite (ring : ℕ → α) (start n : ℕ) (b : ℕ → α) : ℕ → α := fun j ↦
  if start ≤ j ∧ j < start + n then b (j - start) else ring j

theorem overwrite_zero (ring : ℕ → α) (start : ℕ) (b : ℕ → α) :
    overwrite ring start 0 b = ring := by
  funext j
  rw [overwrite, if_neg (by omega)]

/-- A run written over from the start on. -/
theorem prefixOf_overwrite (ring : ℕ → α) (n : ℕ) (b : ℕ → α) :
    prefixOf (overwrite ring 0 n b) n = prefixOf b n :=
  prefixOf_congr fun i hi ↦ by rw [overwrite, if_pos (by omega), Nat.sub_zero]

/-- Each of the last `cap` items is in its cell. -/
def Records (cap : ℕ) (ring : ℕ → α) (history : List α) : Prop :=
  ∀ i (h : i < history.length), history.length ≤ i + cap → ring (i % cap) = history[i]

variable {cap n : ℕ} {ring : ℕ → α} {history : List α}

theorem records_nil (cap : ℕ) (ring : ℕ → α) :
    Records cap ring [] := fun _ h ↦ absurd h (Nat.not_lt_zero _)

/-- Of the last items none is in the cells that come next. -/
theorem not_next_cell {L i : ℕ} (hroom : L % cap + n ≤ cap) (hi : i < L) (hlast : L + n ≤ i + cap) :
    ¬ (L % cap ≤ i % cap ∧ i % cap < L % cap + n) := by
  rintro ⟨hle, hlt⟩
  -- Otherwise the cell is that of a later item, less than a whole ring away.
  obtain ⟨t, ht⟩ := Nat.exists_eq_add_of_le hle
  have hsame : (L + t) % cap = i % cap := by
    rw [Nat.add_mod, Nat.mod_eq_of_lt (show t < cap by omega), ← ht, Nat.mod_mod]
  have hdvd := Nat.dvd_of_mod_eq_zero (Nat.sub_mod_eq_zero_of_mod_eq hsame)
  have hzero := Nat.eq_zero_of_dvd_of_lt hdvd (by omega)
  omega

/-- **Items put where the history ends.** -/
theorem Records.write (h : Records cap ring history) (b : ℕ → α)
    (hroom : history.length % cap + n ≤ cap) :
    Records cap (overwrite ring (history.length % cap) n b) (history ++ prefixOf b n) := by
  intro i hi hlast
  rw [List.length_append, length_prefixOf] at hi hlast
  rw [overwrite]
  obtain hold | hnew := lt_or_ge i history.length
  · rw [if_neg (not_next_cell hroom hold hlast), List.getElem_append_left hold]
    exact h i hold (by omega)
  · obtain ⟨t, rfl⟩ := Nat.exists_eq_add_of_le hnew
    have hcell : (history.length + t) % cap = history.length % cap + t := by
      rw [Nat.add_mod, Nat.mod_eq_of_lt (show t < cap by omega), Nat.mod_eq_of_lt (by omega)]
    rw [hcell, if_pos (by omega), Nat.add_sub_cancel_left, List.getElem_append_right hnew]
    simp [prefixOf]

/-- **What a ring holds**, from the cell of the oldest item on. -/
theorem Records.recent_eq (h : Records cap ring history) :
    recent cap history =
      prefixOf (fun k ↦ ring ((history.length - cap + k) % cap)) (min cap history.length) := by
  refine List.ext_getElem (by simp [length_recent]) fun k hk _ ↦ ?_
  rw [length_recent] at hk
  have hcell := h (history.length - cap + k) (by omega) (by omega)
  simp [recent, prefixOf, hcell]
