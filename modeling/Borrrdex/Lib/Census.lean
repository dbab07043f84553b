import Mathlib.Algebra.BigOperators.Group.Finset.Basic
import Mathlib.Algebra.Order.BigOperators.Group.Finset
import Mathlib.Tactic

/-!
# Counting the parties of a protocol

Any number of parties run the same program, each at its own point.  `census p point` is how many of
them are at a point of the kind `p`, and `census_update` says how that changes when one of them
moves.  With it an invariant that ties shared variables to program points is arithmetic.
-/

set_option autoImplicit false

universe u v

variable {T : Type u} {P : Type v} [Fintype T]

/-- The parties that are at a point of a kind. -/
def census (p : P → Bool) (point : T → P) : ℕ := ∑ t, (p (point t)).toNat

variable {p q : P → Bool} {f : T → P}

theorem census_eq_card : census p f = (Finset.univ.filter fun t ↦ p (f t)).card := by
  rw [census, Finset.card_filter]
  exact Finset.sum_congr rfl fun t _ ↦ by cases p (f t) <;> rfl

/-- **One party moves.** -/
theorem census_update [DecidableEq T] (p : P → Bool) (f : T → P) (t : T) (x : P) :
    census p (Function.update f t x) + (p (f t)).toNat =
      census p f + (p x).toNat := by
  have hrest : ∑ u ∈ Finset.univ.erase t, (p (Function.update f t x u)).toNat =
      ∑ u ∈ Finset.univ.erase t, (p (f u)).toNat :=
    Finset.sum_congr rfl fun u hu ↦ by rw [Function.update_of_ne (Finset.ne_of_mem_erase hu)]
  have hnew := Finset.add_sum_erase Finset.univ
    (fun u ↦ (p (Function.update f t x u)).toNat) (Finset.mem_univ t)
  have hold := Finset.add_sum_erase Finset.univ (fun u ↦ (p (f u)).toNat) (Finset.mem_univ t)
  rw [Function.update_self] at hnew
  rw [census, census, ← hnew, ← hold, hrest]
  omega

section

variable [DecidableEq T] {t : T} {x y : P}

theorem census_stay (hx : f t = x) (h : p x = p y) :
    census p (Function.update f t y) = census p f := by
  have hcount := census_update p f t y
  rw [hx, h] at hcount
  exact Nat.add_right_cancel hcount

theorem census_join (hx : f t = x) (h : p x = false) (h' : p y = true) :
    census p (Function.update f t y) = census p f + 1 := by
  have hcount := census_update p f t y
  rwa [hx, h, h'] at hcount

theorem census_leave (hx : f t = x) (h : p x = true) (h' : p y = false) :
    census p (Function.update f t y) + 1 = census p f := by
  have hcount := census_update p f t y
  rwa [hx, h, h'] at hcount

end

theorem toNat_le_census (t : T) : (p (f t)).toNat ≤ census p f :=
  Finset.single_le_sum (f := fun u ↦ (p (f u)).toNat) (fun _ _ ↦ Nat.zero_le _)
    (Finset.mem_univ t)

theorem one_le_census {t : T} (h : p (f t) = true) : 1 ≤ census p f := by
  have hle := toNat_le_census (p := p) (f := f) t
  rwa [h] at hle

/-- Two parties count twice. -/
theorem two_le_census {t u : T} (hne : t ≠ u) (ht : p (f t) = true) (hu : p (f u) = true) :
    2 ≤ census p f := by
  rw [census_eq_card]
  exact Finset.one_lt_card.mpr ⟨t, by simpa using ht, u, by simpa using hu, hne⟩

theorem census_eq_zero (h : ∀ t, p (f t) = false) : census p f = 0 :=
  Finset.sum_eq_zero fun t _ ↦ by rw [h t, Bool.toNat_false]

theorem census_le (hpq : ∀ x, p x = true → q x = true) : census p f ≤ census q f := by
  rw [census_eq_card, census_eq_card]
  exact Finset.card_le_card (Finset.monotone_filter_right _ fun t _ ↦ hpq (f t))

theorem census_lt (hpq : ∀ x, p x = true → q x = true) {t : T} (hp : p (f t) = false)
    (hq : q (f t) = true) : census p f < census q f := by
  rw [census_eq_card, census_eq_card]
  refine Finset.card_lt_card (Finset.ssubset_iff_of_subset ?_ |>.mpr ⟨t, ?_, ?_⟩)
  · exact Finset.monotone_filter_right _ fun t _ ↦ hpq (f t)
  · simpa using hq
  · simpa using hp

/-- One that is elsewhere does not count. -/
theorem census_lt_card {t : T} (h : p (f t) = false) : census p f < Fintype.card T := by
  rw [census_eq_card, ← Finset.card_univ]
  refine Finset.card_lt_card (Finset.filter_ssubset.mpr ⟨t, Finset.mem_univ t, ?_⟩)
  simp [h]

theorem census_add (hpq : ∀ x, p x = true → q x = false) :
    census p f + census q f = census (fun x ↦ p x || q x) f := by
  rw [census, census, census, ← Finset.sum_add_distrib]
  refine Finset.sum_congr rfl fun t _ ↦ ?_
  cases hp : p (f t) with
  | false => rw [Bool.false_or, Bool.toNat_false, zero_add]
  | true => rw [hpq _ hp, Bool.true_or, Bool.toNat_false, add_zero]
