import Mathlib.Data.Nat.Notation
import Mathlib.Logic.Relation

/-!
# Runs of a system

A system has initial states and moves, of which not all are possible in a state.  `Reaches P` are
the states of the runs all of whose moves satisfy `P`, and `Reaches.invariant` is the rule for what
holds in all of them.  `reaches_goal` is the rule for what a system gets to: a rank that some move
lowers as long as it is not there.
-/

set_option autoImplicit false

universe u v

/-- Its initial states, and what a move does, if it is possible. -/
structure Machine (S : Type u) (M : Type v) where
  initial : S → Prop
  step : S → M → Option S

namespace Machine

variable {S : Type u} {M : Type v}

/-- The states of runs all of whose moves satisfy `P`. -/
inductive Reaches (sys : Machine S M) (P : S → M → Prop) : S → Prop
  | initial {s : S} (h : sys.initial s) : Reaches sys P s
  | step {s s' : S} {m : M} (h : Reaches sys P s) (hP : P s m) (hs : sys.step s m = some s') :
      Reaches sys P s'

variable {sys : Machine S M} {P Q : S → M → Prop} {s s' : S}

/-- **What holds initially and is kept by every move holds always.** -/
theorem Reaches.invariant {Inv : S → Prop} (hinitial : ∀ s, sys.initial s → Inv s)
    (hstep : ∀ s m s', Inv s → P s m → sys.step s m = some s' → Inv s') (h : sys.Reaches P s) :
    Inv s := by
  induction h with
  | initial h => exact hinitial _ h
  | step _ hP hs ih => exact hstep _ _ _ ih hP hs

theorem Reaches.mono (hPQ : ∀ s m, P s m → Q s m) (h : sys.Reaches P s) : sys.Reaches Q s := by
  induction h with
  | initial h => exact .initial h
  | step _ hP hs ih => exact .step ih (hPQ _ _ hP) hs

/-- All moves of a run satisfy `P`. -/
def Along (sys : Machine S M) (P : S → M → Prop) : S → List M → Prop
  | _, [] => True
  | s, m :: moves => P s m ∧ ∀ s', sys.step s m = some s' → Along sys P s' moves

theorem Along.cons {m : M} {moves : List M} (hP : P s m) (hs : sys.step s m = some s')
    (h : sys.Along P s' moves) : sys.Along P s (m :: moves) :=
  ⟨hP, fun _ ht ↦ Option.some.inj (hs.symm.trans ht) ▸ h⟩

theorem Reaches.along (h : sys.Reaches P s) {moves : List M} (hP : sys.Along P s moves)
    (hs : moves.foldlM sys.step s = some s') : sys.Reaches P s' := by
  induction moves generalizing s with
  | nil =>
    cases hs
    exact h
  | cons m moves ih =>
    obtain ⟨t, hm, ht⟩ := Option.bind_eq_some_iff.mp hs
    exact ih (h.step hP.1 hm) (hP.2 t hm) ht

/-- Moves, one after the other. -/
theorem Reaches.foldlM (h : sys.Reaches P s) {moves : List M} (hP : ∀ m ∈ moves, ∀ s, P s m)
    (hs : moves.foldlM sys.step s = some s') : sys.Reaches P s' := by
  induction moves generalizing s with
  | nil =>
    cases hs
    exact h
  | cons m moves ih =>
    obtain ⟨t, hm, ht⟩ := Option.bind_eq_some_iff.mp hs
    have hfirst := h.step (hP m List.mem_cons_self s) hm
    exact ih hfirst (fun m' hm' ↦ hP m' (List.mem_cons_of_mem m hm')) ht

end Machine

/-- **What is brought nearer as long as it is not there comes about.** -/
theorem reaches_goal {S : Type u} {R : S → S → Prop} {Inv Goal : S → Prop} (rank : S → ℕ)
    (hstep : ∀ s, Inv s → ¬ Goal s → ∃ s', R s s' ∧ Inv s' ∧ rank s' < rank s) {s : S}
    (h : Inv s) : ∃ s', Relation.ReflTransGen R s s' ∧ Goal s' := by
  induction hn : rank s using Nat.strongRecOn generalizing s with
  | ind n ih =>
    by_cases hgoal : Goal s
    · exact ⟨s, .refl, hgoal⟩
    · obtain ⟨s', hs, hinv, hlt⟩ := hstep s h hgoal
      obtain ⟨s'', hrun, hgoal'⟩ := ih (rank s') (hn ▸ hlt) hinv rfl
      exact ⟨s'', .head hs hrun, hgoal'⟩
