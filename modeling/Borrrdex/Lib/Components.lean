import Mathlib.Algebra.GroupWithZero.Nat
import Mathlib.Data.List.Basic

/-!
# The components of a separated list

`components p l` are the non-empty maximal runs of `l` without a separator, in order: what a path
means to a tokenizer that treats any number of separators as one.  A scanner reads them off from
the left, and `components_of_run` is the step it takes: skip separators, take a run, and go on
behind the separator that ended it.
-/

set_option autoImplicit false

namespace Components

variable {α : Type} {p : α → Bool}

/-- The non-empty runs of `l` between separators. -/
def components (p : α → Bool) (l : List α) : List (List α) :=
  (l.splitOnP p).filter fun c ↦ !c.isEmpty

@[simp] theorem components_nil : components p [] = [] := rfl

/-- A separator splits the components of a list in two. -/
theorem components_append_cons {sep : α} (hsep : p sep = true) (xs ys : List α) :
    components p (xs ++ sep :: ys) = components p xs ++ components p ys := by
  rw [components, List.splitOnP_append_cons xs ys hsep, List.filter_append]
  rfl

/-- **Leading separators change nothing.** -/
theorem components_cons {sep : α} (hsep : p sep = true) (l : List α) :
    components p (sep :: l) = components p l := by
  simpa using components_append_cons hsep [] l

/-- **Trailing separators change nothing.** -/
theorem components_concat {sep : α} (hsep : p sep = true) (l : List α) :
    components p (l ++ [sep]) = components p l := by
  simpa using components_append_cons hsep l []

/-- **Repeated separators change nothing.** -/
theorem components_append_cons_cons {sep : α} (hsep : p sep = true) (xs ys : List α) :
    components p (xs ++ sep :: sep :: ys) = components p (xs ++ sep :: ys) := by
  rw [components_append_cons hsep, components_append_cons hsep, components_cons hsep]

theorem components_append_of_forall {xs : List α} (hxs : ∀ x ∈ xs, p x = true) (l : List α) :
    components p (xs ++ l) = components p l := by
  induction xs with
  | nil => rfl
  | cons x xs ih =>
    rw [List.cons_append, components_cons (hxs x List.mem_cons_self)]
    exact ih fun y hy ↦ hxs y (List.mem_cons_of_mem x hy)

/-- A list without separators is its own only component. -/
theorem components_of_forall_not {xs : List α} (hxs : ∀ x ∈ xs, p x = false) (hne : xs ≠ []) :
    components p xs = [xs] := by
  rw [components, List.splitOnP_eq_singleton hxs]
  simp [hne]

/-- **What a scanner does.**  Past the separators `pre`, the run `w` up to the next separator is
the first component, and the rest are those behind that separator. -/
theorem components_of_run {pre w rest : List α} {sep : α} (hpre : ∀ x ∈ pre, p x = true)
    (hw : ∀ x ∈ w, p x = false) (hne : w ≠ []) (hsep : p sep = true) :
    components p (pre ++ (w ++ sep :: rest)) = w :: components p rest := by
  rw [components_append_of_forall hpre, components_append_cons hsep,
    components_of_forall_not hw hne, List.singleton_append]

/-- Only what `p` says of the elements matters. -/
theorem components_congr {q : α → Bool} {l : List α} (h : ∀ x ∈ l, p x = q x) :
    components p l = components q l := by
  have hsplit : l.splitOnP p = l.splitOnP q := by
    induction l with
    | nil => rfl
    | cons a l ih =>
      rw [List.splitOnP_cons_eq_if_modifyHead, List.splitOnP_cons_eq_if_modifyHead,
        h a List.mem_cons_self, ih fun x hx ↦ h x (List.mem_cons_of_mem a hx)]
  rw [components, components, hsplit]

/-- There are no more components than elements. -/
theorem length_components_le (l : List α) : (components p l).length ≤ l.length := by
  induction l with
  | nil => exact Nat.le_refl _
  | cons a l ih =>
    rw [List.length_cons]
    by_cases ha : p a = true
    · rw [components_cons ha]
      exact Nat.le_succ_of_le ih
    · rw [components] at ih ⊢
      rw [List.splitOnP_cons_eq_if_modifyHead, if_neg ha]
      cases hsplit : l.splitOnP p with
      | nil => exact absurd hsplit (List.splitOnP_ne_nil p l)
      | cons w ws =>
        rw [hsplit] at ih
        have hle : (ws.filter fun c ↦ !c.isEmpty).length ≤ l.length :=
          Nat.le_trans ((List.sublist_cons_self w ws).filter _).length_le ih
        simpa using hle

/-- Every element that is not a separator is in a component. -/
theorem sum_length_components (l : List α) :
    ((components p l).map List.length).sum = l.countP fun a ↦ !p a := by
  induction l with
  | nil => rfl
  | cons a l ih =>
    by_cases ha : p a = true
    · rw [components_cons ha, ih, List.countP_cons_of_neg (by simp [ha])]
    · rw [List.countP_cons_of_pos (by simpa using ha), ← ih, components, components,
        List.splitOnP_cons_eq_if_modifyHead, if_neg ha]
      cases hsplit : l.splitOnP p with
      | nil => exact absurd hsplit (List.splitOnP_ne_nil p l)
      | cons w ws =>
        cases w with
        | nil => simp [Nat.add_comm]
        | cons b w => simp [Nat.add_right_comm]

/-- **What can be added to a list without a change to its components** is separators. -/
theorem components_append_eq_iff (xs ys : List α) :
    components p (xs ++ ys) = components p xs ↔ ∀ y ∈ ys, p y = true := by
  constructor
  · intro h
    have hsum := congrArg (fun cs ↦ (cs.map List.length).sum) h
    simp only [sum_length_components, List.countP_append] at hsum
    have hzero : ys.countP (fun a ↦ !p a) = 0 := by omega
    intro y hy
    simpa using List.countP_eq_zero.mp hzero y hy
  · intro h
    induction ys generalizing xs with
    | nil => rw [List.append_nil]
    | cons y ys ih =>
      have hy := h y List.mem_cons_self
      have hys : components p ys = [] := by
        have hnil := ih [] fun z hz ↦ h z (List.mem_cons_of_mem y hz)
        rwa [List.nil_append] at hnil
      rw [components_append_cons hy, hys, List.append_nil]

/-- **A component has no separator in it**: it is its own only component. -/
theorem components_of_mem {l c : List α} (hc : c ∈ components p l) : components p c = [c] := by
  have hnone : ∀ c ∈ l.splitOnP p, ∀ x ∈ c, p x = false := by
    clear hc
    induction l with
    | nil => simp
    | cons a l ih =>
      rw [List.splitOnP_cons_eq_if_modifyHead]
      cases hsplit : l.splitOnP p with
      | nil => exact absurd hsplit (List.splitOnP_ne_nil p l)
      | cons w ws =>
        rw [hsplit] at ih
        split
        · simpa using ih
        · next ha => simpa [ha] using ih
  obtain ⟨hmem, hne⟩ := List.mem_filter.mp hc
  exact components_of_forall_not (hnone c hmem) (by simpa using hne)

end Components
