import Mathlib.Logic.Basic

/-!
# `for` loops that may return early

`forRange body start count s` runs `body` for `start`, `start + 1`, … on a state, `count` times
at most: a `.inr` goes on with a new state, a `.inl` leaves the loop with a result.  `forRange_rule`
is the rule for reasoning about one: an invariant at the index the loop is about to look at, and a
postcondition that every early return establishes.  The body of a loop may itself be a loop.
-/

set_option autoImplicit false

universe u v

variable {σ : Type u} {ρ : Type v}

/-- Run `body` on consecutive indices until it returns a result. -/
def forRange (body : Nat → σ → ρ ⊕ σ) : Nat → Nat → σ → ρ ⊕ σ
  | _, 0, s => .inr s
  | start, count + 1, s =>
    match body start s with
    | .inl r => .inl r
    | .inr s' => forRange body (start + 1) count s'

/-- **The rule for loops with early return.** -/
theorem forRange_rule (body : Nat → σ → ρ ⊕ σ) (Inv : Nat → σ → Prop) (Post : ρ → Prop)
    {start count : Nat} {s : σ} (hinit : Inv start s)
    (hnext : ∀ i s s', start ≤ i → i < start + count → Inv i s → body i s = .inr s' →
      Inv (i + 1) s')
    (hexit : ∀ i s r, start ≤ i → i < start + count → Inv i s → body i s = .inl r → Post r) :
    (∃ r, forRange body start count s = .inl r ∧ Post r) ∨
      ∃ s', forRange body start count s = .inr s' ∧ Inv (start + count) s' := by
  induction count generalizing start s with
  | zero => exact .inr ⟨s, rfl, hinit⟩
  | succ count ih =>
    rw [forRange]
    cases hb : body start s with
    | inl r => exact .inl ⟨r, rfl, hexit start s r (Nat.le_refl _) (by omega) hinit hb⟩
    | inr s' =>
      have hinit' := hnext start s s' (Nat.le_refl _) (by omega) hinit hb
      rcases ih hinit' (fun i s s' h1 h2 ↦ hnext i s s' (by omega) (by omega))
        (fun i s r h1 h2 ↦ hexit i s r (by omega) (by omega)) with h | ⟨t, ht, hinv⟩
      · exact .inl h
      · refine .inr ⟨t, ht, ?_⟩
        rwa [show start + (count + 1) = start + 1 + count by omega]

/-- A loop that runs to its end has run its body at every index. -/
theorem forRange_inr {body : Nat → σ → ρ ⊕ σ} {start count : Nat} {s s' : σ}
    (h : forRange body start count s = .inr s') {i : Nat} (hlo : start ≤ i)
    (hhi : i < start + count) : ∃ t t', body i t = .inr t' := by
  induction count generalizing start s with
  | zero => omega
  | succ count ih =>
    rw [forRange] at h
    cases hb : body start s with
    | inl r =>
      rw [hb] at h
      cases h
    | inr t =>
      rw [hb] at h
      rcases Nat.eq_or_lt_of_le hlo with rfl | hlt
      · exact ⟨s, t, hb⟩
      · exact ih h hlt (by omega)
