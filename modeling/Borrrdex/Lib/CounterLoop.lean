import Mathlib.Tactic

/-!
# `for` loops with a narrow counter

`forBelow n body start s` is `for(i = start; i < n; i++)` with a counter of `w` bits, which wraps.
A body goes on with a new state (`.inr`) or breaks (`.inl`).  The result has the counter at the end;
there is none if the loop does not end.

`forBelow_rule` is the rule for a bound that the counter can reach, and `forBelow_eq_none` says that
with another one the loop does not end.
-/

set_option autoImplicit false

universe u

variable {σ : Type u} {w n : ℕ}

/-- So many tests of the loop's condition. -/
def counterLoop (n : ℕ) (body : BitVec w → σ → σ ⊕ σ) : ℕ → BitVec w → σ → Option (BitVec w × σ)
  | 0, _, _ => none
  | tests + 1, i, s =>
    if i.toNat < n then
      match body i s with
      | .inl s => some (i, s)
      | .inr s => counterLoop n body tests (i + 1) s
    else some (i, s)

/-- The loop.  A counter of `w` bits has had every value when it has been tested `2 ^ w` times. -/
def forBelow (n : ℕ) (body : BitVec w → σ → σ ⊕ σ) (start : BitVec w) (s : σ) :
    Option (BitVec w × σ) :=
  counterLoop n body (2 ^ w + 1) start s

variable {body : BitVec w → σ → σ ⊕ σ} {start : BitVec w} {s : σ}

theorem toNat_succ_of_lt (hn : n < 2 ^ w) {i : BitVec w} (hi : i.toNat < n) :
    (i + 1).toNat = i.toNat + 1 := by
  have hone : (1 : BitVec w).toNat = 1 := by
    change (1#w).toNat = 1
    rw [BitVec.toNat_ofNat, Nat.mod_eq_of_lt (by omega)]
  rw [BitVec.toNat_add, hone, Nat.mod_eq_of_lt (by omega)]

theorem counterLoop_rule (hn : n < 2 ^ w) (Inv : ℕ → σ → Prop)
    (hnext : ∀ (i : BitVec w) s, start.toNat ≤ i.toNat → i.toNat < n → Inv i.toNat s →
      ∃ s', body i s = .inr s' ∧ Inv (i.toNat + 1) s') {tests : ℕ} {i : BitVec w}
    (hstart : start.toNat ≤ i.toNat) (htests : n ≤ tests + i.toNat) (hinit : Inv i.toNat s) :
    ∃ (j : BitVec w) (s' : σ), counterLoop n body (tests + 1) i s = some (j, s') ∧
      j.toNat = max i.toNat n ∧ Inv (max i.toNat n) s' := by
  induction tests generalizing i s with
  | zero =>
    rw [counterLoop, if_neg (by omega), max_eq_left (by omega)]
    exact ⟨i, s, rfl, rfl, hinit⟩
  | succ tests ih =>
    rw [counterLoop]
    split
    · next hlt =>
      obtain ⟨s₁, hbody, hinv⟩ := hnext i s hstart hlt hinit
      have hsucc := toNat_succ_of_lt hn hlt
      rw [← hsucc] at hinv
      obtain ⟨j, s', hloop, hj, hinv'⟩ := ih (by omega) (by omega) hinv
      have hmax : max (i + 1).toNat n = max i.toNat n := by omega
      rw [hbody]
      exact ⟨j, s', hloop, hj.trans hmax, hmax ▸ hinv'⟩
    · next hle =>
      rw [max_eq_left (not_lt.mp hle)]
      exact ⟨i, s, rfl, rfl, hinit⟩

/-- **The rule for loops whose counter gets to the end**: an invariant at the counter, which the
body keeps without breaking. -/
theorem forBelow_rule (hn : n < 2 ^ w) (Inv : ℕ → σ → Prop) (hinit : Inv start.toNat s)
    (hnext : ∀ (i : BitVec w) s, start.toNat ≤ i.toNat → i.toNat < n → Inv i.toNat s →
      ∃ s', body i s = .inr s' ∧ Inv (i.toNat + 1) s') :
    ∃ (j : BitVec w) (s' : σ), forBelow n body start s = some (j, s') ∧
      j.toNat = max start.toNat n ∧ Inv (max start.toNat n) s' :=
  counterLoop_rule hn Inv hnext le_rfl (by omega) hinit

/-- The rule for a loop that starts at zero and whose body always goes on. -/
theorem forBelow_go (hn : n < 2 ^ w) (step : ℕ → σ → σ) (Inv : ℕ → σ → Prop) (hinit : Inv 0 s)
    (hnext : ∀ i s, i < n → Inv i s → Inv (i + 1) (step i s)) : ∃ (j : BitVec w) (s' : σ),
    forBelow n (fun i s ↦ .inr (step i.toNat s)) 0 s = some (j, s') ∧ Inv n s' := by
  have hzero : (0 : BitVec w).toNat = 0 := rfl
  obtain ⟨j, s', hloop, -, hinv⟩ := forBelow_rule (s := s) hn Inv (hzero ▸ hinit)
    (fun i s _ hi hs ↦ ⟨step i.toNat s, rfl, hnext i.toNat s hi hs⟩)
  rw [hzero, Nat.zero_max] at hinv
  exact ⟨j, s', hloop, hinv⟩

/-- **A bound that the counter cannot have** is never reached, unless the body breaks. -/
theorem forBelow_eq_none (hn : 2 ^ w ≤ n) (Inv : σ → Prop) (hinit : Inv s)
    (hnext : ∀ i s, Inv s → ∃ s', body i s = .inr s' ∧ Inv s') :
      forBelow n body start s = none := by
  rw [forBelow]
  generalize 2 ^ w + 1 = tests
  induction tests generalizing start s with
  | zero => rfl
  | succ tests ih =>
    obtain ⟨s', hbody, hinv⟩ := hnext start s hinit
    rw [counterLoop, if_pos (start.isLt.trans_le hn), hbody]
    exact ih hinv
