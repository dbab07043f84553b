import Mathlib.Logic.Basic

/-!
# Two runs of a program that may fail

`Agree R x y` says that two computations fail alike, or return results that `R` relates.  A
program that never looks at what `R` leaves out agrees with itself: that is shown one call at a
time, by `Agree.bind`.
-/

set_option autoImplicit false

universe u v

variable {ε : Type u} {α β : Type v}

/-- The two computations fail with the same error, or return related results. -/
def Agree (R : α → α → Prop) (x y : Except ε α) : Prop :=
  (∃ e, x = .error e ∧ y = .error e) ∨ ∃ a b, x = .ok a ∧ y = .ok b ∧ R a b

namespace Agree

variable {R : α → α → Prop} {S : β → β → Prop} {x y : Except ε α} {f g : α → Except ε β}

theorem ok {a b : α} (h : R a b) : Agree R (.ok a : Except ε α) (.ok b) :=
  .inr ⟨a, b, rfl, rfl, h⟩

theorem error (e : ε) : Agree R (.error e) (.error e) := .inl ⟨e, rfl, rfl⟩

/-- **One call after another.** -/
theorem bind (h : Agree R x y) (hfg : ∀ a b, R a b → Agree S (f a) (g b)) :
    Agree S (x >>= f) (y >>= g) := by
  rcases h with ⟨e, rfl, rfl⟩ | ⟨a, b, rfl, rfl, hab⟩
  · exact .error e
  · exact hfg a b hab

/-- What the first run returns, the second returns up to `R`. -/
theorem of_ok (h : Agree R x y) {a : α} (hx : x = .ok a) : ∃ b, y = .ok b ∧ R a b := by
  rcases h with ⟨e, rfl, -⟩ | ⟨a', b, rfl, rfl, hab⟩
  · cases hx
  · cases hx
    exact ⟨b, rfl, hab⟩

end Agree
