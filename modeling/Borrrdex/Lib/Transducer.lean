import Mathlib.Data.List.Basic
import Mathlib.Tactic.Common

/-!
# Transducers

A transducer reads a word letter by letter and says something at each, a word that may be empty.
`output_append` is the rule for a word that comes in parts.

`exists_output_iff` is about all that a transducer can say.  Its vocabulary is a set of pieces: at
each letter it says nothing or a piece, and there are states in which it can be brought to say any
piece such that it is in one of them again.  Then what it can say are the sequences of pieces.
-/

set_option autoImplicit false

universe u v w

structure Transducer (σ : Type u) (α : Type v) (β : Type w) where
  step : σ → α → σ
  say : σ → α → List β

namespace Transducer

variable {σ : Type u} {α : Type v} {β : Type w} {T : Transducer σ α β} {s : σ} {xs ys : List α}

/-- The state after a word. -/
def state (T : Transducer σ α β) (s : σ) (xs : List α) : σ := xs.foldl T.step s

/-- What is said at a word. -/
def output (T : Transducer σ α β) : σ → List α → List β
  | _, [] => []
  | s, x :: xs => T.say s x ++ T.output (T.step s x) xs

@[simp] theorem output_nil : T.output s [] = [] := rfl

@[simp] theorem state_nil : T.state s [] = s := rfl

@[simp] theorem output_cons {x : α} :
    T.output s (x :: xs) = T.say s x ++ T.output (T.step s x) xs := rfl

@[simp] theorem state_cons {x : α} : T.state s (x :: xs) = T.state (T.step s x) xs := rfl

theorem state_append : T.state s (xs ++ ys) = T.state (T.state s xs) ys := List.foldl_append

/-- **What is said at a word that comes in two parts.** -/
theorem output_append : T.output s (xs ++ ys) = T.output s xs ++ T.output (T.state s xs) ys := by
  induction xs generalizing s with
  | nil => rfl
  | cons x xs ih =>
    rw [List.cons_append, output_cons, ih, output_cons, List.append_assoc, state_cons]

/-! ## All that can be said -/

variable {Piece : List β → Prop}

/-- Nothing but pieces is said. -/
theorem output_eq_flatten (h : ∀ s x, T.say s x = [] ∨ Piece (T.say s x)) (s : σ) (xs : List α) :
    ∃ pieces : List (List β), (∀ p ∈ pieces, Piece p) ∧ T.output s xs = pieces.flatten := by
  induction xs generalizing s with
  | nil => exact ⟨[], List.forall_mem_nil _, rfl⟩
  | cons x xs ih =>
    obtain ⟨pieces, hpieces, hsaid⟩ := ih (T.step s x)
    obtain hnone | hpiece := h s x
    · exact ⟨pieces, hpieces, by rw [output_cons, hnone, List.nil_append, hsaid]⟩
    · refine ⟨T.say s x :: pieces, List.forall_mem_cons.mpr ⟨hpiece, hpieces⟩, ?_⟩
      rw [output_cons, hsaid, List.flatten_cons]

/-- All pieces can be said, one after the other. -/
theorem exists_output_eq_flatten {Ready : σ → Prop}
    (h : ∀ s, Ready s → ∀ p, Piece p → ∃ xs, T.output s xs = p ∧ Ready (T.state s xs))
    {pieces : List (List β)} (hpieces : ∀ p ∈ pieces, Piece p) (hs : Ready s) :
    ∃ xs, T.output s xs = pieces.flatten := by
  induction pieces generalizing s with
  | nil => exact ⟨[], rfl⟩
  | cons p pieces ih =>
    obtain ⟨hpiece, hrest⟩ := List.forall_mem_cons.mp hpieces
    obtain ⟨xs, hsaid, hready⟩ := h s hs p hpiece
    obtain ⟨ys, hsaid'⟩ := ih hrest hready
    exact ⟨xs ++ ys, by rw [output_append, hsaid, hsaid', List.flatten_cons]⟩

/-- **What can be said are the sequences of pieces.** -/
theorem exists_output_iff {Ready : σ → Prop}
    (hsay : ∀ s x, T.say s x = [] ∨ Piece (T.say s x))
    (hsaid : ∀ s, Ready s → ∀ p, Piece p → ∃ xs, T.output s xs = p ∧ Ready (T.state s xs))
    (hs : Ready s) (text : List β) :
    (∃ xs, T.output s xs = text) ↔
      ∃ pieces : List (List β), (∀ p ∈ pieces, Piece p) ∧ text = pieces.flatten := by
  constructor
  · rintro ⟨xs, rfl⟩
    exact output_eq_flatten hsay s xs
  · rintro ⟨pieces, hpieces, rfl⟩
    exact exists_output_eq_flatten hsaid hpieces hs

end Transducer
