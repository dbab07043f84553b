import Mathlib.Logic.Function.Basic
import Mathlib.Tactic

/-!
# A heap of separate arrays

What a program may rely on that gets its memory from `malloc`: every array it has is its own.  Here
an array is a list at a pointer, a `Step` is what a call may do, and what no array can notice is
that there are others: `Step.other` says that a call changes the arrays it is about only, and
`Step.apart` that arrays never come to overlap.
-/

set_option autoImplicit false

universe u

namespace ArrayHeap

variable {β : Type u}

/-- The arrays that a program has, by their addresses. -/
abbrev Arrays (β : Type u) := ℕ → Option (List β)

/-- What it may do. -/
inductive Call (β : Type u)
  /-- It asks for an array of so many cells. -/
  | malloc (n : ℕ)
  /-- It asks for an array of so many parts of so many cells, all of them zero. -/
  | calloc (parts n : ℕ)
  /-- It asks for another size. -/
  | realloc (p n : ℕ)
  /-- It gives an array back. -/
  | free (p : ℕ)
  /-- It writes in a cell. -/
  | store (p i : ℕ) (v : β)

/-- The array that a call is about. -/
def Call.pointer : Call β → Option ℕ
  | .malloc _ => none
  | .calloc _ _ => none
  | .realloc p _ => some p
  | .free p => some p
  | .store p _ _ => some p

/-- How many cells it asks for. -/
def Call.asks : Call β → Option ℕ
  | .malloc n => some n
  | .calloc parts n => some (parts * n)
  | .realloc _ n => if n = 0 then none else some n
  | .free _ => none
  | .store _ _ _ => none

/-- There is room for another array. -/
structure New (A : Arrays β) (p n : ℕ) : Prop where
  ne_zero : p ≠ 0
  none : A p = none
  apart : ∀ q w, A q = some w → p + n ≤ q ∨ q + w.length ≤ p

/-- An array more. -/
def put (A : Arrays β) (p : ℕ) (w : List β) : Arrays β := Function.update A p (some w)

/-- An array less. -/
def drop (A : Arrays β) (p : ℕ) : Arrays β := Function.update A p none

/-- **What a call may do**, with what it may return. -/
inductive Step (zero : β) (A : Arrays β) : Call β → ℕ → Arrays β → Prop
  | malloc {n p : ℕ} {w : List β} (hnew : New A p n) (hw : w.length = n) :
      Step zero A (.malloc n) p (put A p w)
  | calloc {parts n p : ℕ} (hnew : New A p (parts * n)) :
      Step zero A (.calloc parts n) p (put A p (List.replicate (parts * n) zero))
  | free {p : ℕ} (hp : A p ≠ none) : Step zero A (.free p) 0 (drop A p)
  | free_null : Step zero A (.free 0) 0 A
  | realloc_null {n p : ℕ} {w : List β} (hn : n ≠ 0) (hnew : New A p n) (hw : w.length = n) :
      Step zero A (.realloc 0 n) p (put A p w)
  | realloc_zero {p : ℕ} (hp : A p ≠ none) : Step zero A (.realloc p 0) 0 (drop A p)
  | realloc_null_zero : Step zero A (.realloc 0 0) 0 A
  | realloc {p n q : ℕ} {w w' : List β} (hn : n ≠ 0) (hp : A p = some w) (hnew : New A q n)
      (hw : w'.length = n) (hkept : w'.take w.length = w.take n) :
      Step zero A (.realloc p n) q (put (drop A p) q w')
  | store {p i : ℕ} {v : β} {w : List β} (hp : A p = some w) (hi : i < w.length) :
      Step zero A (.store p i v) 0 (put A p (w.set i v))

variable {zero : β} {A A' : Arrays β} {c : Call β} {p q r n : ℕ} {w w' : List β}

theorem put_self : put A p w p = some w := Function.update_self ..

theorem put_ne (h : q ≠ p) : put A p w q = A q := Function.update_of_ne h ..

theorem drop_self : drop A p p = none := Function.update_self ..

theorem drop_ne (h : q ≠ p) : drop A p q = A q := Function.update_of_ne h ..

/-- **The other arrays do not change.** -/
theorem Step.other (h : Step zero A c r A') (hr : q ≠ r) (hc : c.pointer ≠ some q) :
    A' q = A q := by
  have hne : ∀ p, c.pointer = some p → q ≠ p := fun p hp heq ↦ hc (heq ▸ hp)
  cases h with
  | malloc _ _ => exact put_ne hr
  | calloc _ => exact put_ne hr
  | free _ => exact drop_ne (hne _ rfl)
  | free_null => rfl
  | realloc_null _ _ _ => exact put_ne hr
  | realloc_zero _ => exact drop_ne (hne _ rfl)
  | realloc_null_zero => rfl
  | realloc _ _ _ _ _ => rw [put_ne hr, drop_ne (hne _ rfl)]
  | store _ _ => exact put_ne (hne _ rfl)

/-! ## No overlap -/

/-- No array is at null, and no two overlap. -/
structure Apart (A : Arrays β) : Prop where
  ne_zero : ∀ p w, A p = some w → p ≠ 0
  apart : ∀ p w q w', A p = some w → A q = some w' → p ≠ q →
    p + w.length ≤ q ∨ q + w'.length ≤ p

theorem apart_empty : Apart (fun _ ↦ none : Arrays β) :=
  ⟨fun _ _ h ↦ (nomatch h), fun _ _ _ _ h ↦ (nomatch h)⟩

theorem Apart.drop (hA : Apart A) (p : ℕ) : Apart (ArrayHeap.drop A p) := by
  have hsub : ∀ q w, ArrayHeap.drop A p q = some w → A q = some w := fun q w hq ↦ by
    by_cases heq : q = p
    · rw [heq, drop_self] at hq
      cases hq
    · rwa [drop_ne heq] at hq
  exact ⟨fun q w hq ↦ hA.ne_zero q w (hsub q w hq),
    fun q w q' w' hq hq' hne ↦ hA.apart q w q' w' (hsub q w hq) (hsub q' w' hq') hne⟩

theorem Apart.put (hA : Apart A) (hp : p ≠ 0)
    (hnew : ∀ q w', A q = some w' → q ≠ p → p + w.length ≤ q ∨ q + w'.length ≤ p) :
    Apart (ArrayHeap.put A p w) := by
  have hcases : ∀ q v, ArrayHeap.put A p w q = some v → q = p ∧ v = w ∨ q ≠ p ∧ A q = some v :=
    fun q v hq ↦ by
      by_cases heq : q = p
      · rw [heq, put_self] at hq
        exact .inl ⟨heq, (Option.some.inj hq).symm⟩
      · exact .inr ⟨heq, by rwa [put_ne heq] at hq⟩
  refine ⟨fun q v hq ↦ ?_, fun q v q' v' hq hq' hne ↦ ?_⟩
  · rcases hcases q v hq with ⟨rfl, -⟩ | ⟨-, hq⟩
    · exact hp
    · exact hA.ne_zero q v hq
  · rcases hcases q v hq with ⟨rfl, rfl⟩ | ⟨hqp, hold⟩
    · rcases hcases q' v' hq' with ⟨rfl, -⟩ | ⟨hqp', hold'⟩
      · exact absurd rfl hne
      · exact hnew q' v' hold' hqp'
    · rcases hcases q' v' hq' with ⟨rfl, rfl⟩ | ⟨-, hold'⟩
      · exact (hnew q v hold hqp).symm
      · exact hA.apart q v q' v' hold hold' hne

/-- **A call does not make arrays overlap.** -/
theorem Step.apart (h : Step zero A c r A') (hA : Apart A) : Apart A' := by
  cases h with
  | malloc hnew hw =>
    exact hA.put hnew.ne_zero fun q w' hq _ ↦ by
      rw [hw]
      exact hnew.apart q w' hq
  | calloc hnew =>
    exact hA.put hnew.ne_zero fun q w' hq _ ↦ by
      rw [List.length_replicate]
      exact hnew.apart q w' hq
  | free _ => exact hA.drop _
  | free_null => exact hA
  | realloc_null _ hnew hw =>
    exact hA.put hnew.ne_zero fun q w' hq _ ↦ by
      rw [hw]
      exact hnew.apart q w' hq
  | realloc_zero _ => exact hA.drop _
  | realloc_null_zero => exact hA
  | @realloc p n q w w' _ hp hnew hw _ =>
    refine (hA.drop p).put hnew.ne_zero fun q' v hq' _ ↦ ?_
    have hne : q' ≠ p := by
      rintro rfl
      rw [drop_self] at hq'
      cases hq'
    rw [drop_ne hne] at hq'
    rw [hw]
    exact hnew.apart q' v hq'
  | @store p i v w hp _ =>
    refine hA.put (hA.ne_zero p w hp) fun q w' hq hne ↦ ?_
    rw [List.length_set]
    exact hA.apart p w q w' hp hq hne.symm

/-! ## Runs -/

/-- **A run**: the calls, with what they have returned. -/
inductive Run (zero : β) : List (Call β × ℕ) → Arrays β → Prop
  | start : Run zero [] fun _ ↦ none
  | step {tr : List (Call β × ℕ)} {A A' : Arrays β} {c : Call β} {r : ℕ} (hrun : Run zero tr A)
      (h : Step zero A c r A') : Run zero (tr ++ [(c, r)]) A'

theorem Run.apart {tr : List (Call β × ℕ)} (h : Run zero tr A) : Apart A := by
  induction h with
  | start => exact apart_empty
  | step _ hstep ih => exact hstep.apart ih

/-- What becomes of the sizes of the arrays in a call. -/
def sizesAfter (s : ℕ → Option ℕ) : Call β × ℕ → ℕ → Option ℕ
  | (.malloc n, r) => Function.update s r (some n)
  | (.calloc parts n, r) => Function.update s r (some (parts * n))
  | (.realloc p n, r) =>
    if n = 0 then Function.update s p none
    else Function.update (Function.update s p none) r (some n)
  | (.free p, _) => Function.update s p none
  | (.store _ _ _, _) => s

/-- The sizes that follow from a run. -/
def sizes (tr : List (Call β × ℕ)) : ℕ → Option ℕ := tr.foldl sizesAfter fun _ ↦ none

theorem sizes_append (tr : List (Call β × ℕ)) (x : Call β × ℕ) :
    sizes (tr ++ [x]) = sizesAfter (sizes tr) x := by
  rw [sizes, List.foldl_append]
  rfl

/-- The sizes of the arrays there are. -/
def sizesOf (A : Arrays β) (p : ℕ) : Option ℕ := (A p).map List.length

theorem sizesOf_put : sizesOf (put A p w) = Function.update (sizesOf A) p (some w.length) := by
  funext q
  by_cases hq : q = p
  · rw [hq, sizesOf, put_self, Function.update_self]
    rfl
  · rw [sizesOf, put_ne hq, Function.update_of_ne hq]
    rfl

theorem sizesOf_drop : sizesOf (drop A p) = Function.update (sizesOf A) p none := by
  funext q
  by_cases hq : q = p
  · rw [hq, sizesOf, drop_self, Function.update_self]
    rfl
  · rw [sizesOf, drop_ne hq, Function.update_of_ne hq]
    rfl

theorem drop_null (hA : Apart A) : drop A 0 = A := by
  refine Function.update_eq_self_iff.mpr ?_
  cases hp : A 0 with
  | none => rfl
  | some w => exact absurd rfl (hA.ne_zero 0 w hp)

theorem Step.sizesOf (h : Step zero A c r A') (hA : Apart A) :
    sizesOf A' = sizesAfter (sizesOf A) (c, r) := by
  cases h with
  | malloc _ hw => rw [sizesOf_put, hw]; rfl
  | calloc _ => rw [sizesOf_put, List.length_replicate]; rfl
  | free _ => exact sizesOf_drop
  | free_null =>
    rw [sizesAfter, ← sizesOf_drop, drop_null hA]
  | realloc_null hn _ hw =>
    rw [sizesAfter, if_neg hn, ← sizesOf_drop, drop_null hA, sizesOf_put, hw]
  | realloc_zero _ => rw [sizesAfter, if_pos rfl, ← sizesOf_drop]
  | realloc_null_zero => rw [sizesAfter, if_pos rfl, ← sizesOf_drop, drop_null hA]
  | realloc hn _ _ hw _ => rw [sizesAfter, if_neg hn, sizesOf_put, sizesOf_drop, hw]
  | @store p i v w hp _ =>
    rw [sizesOf_put, List.length_set]
    refine Function.update_eq_self_iff.mpr ?_
    rw [ArrayHeap.sizesOf, hp]
    rfl

/-- The sizes of the arrays are known from the run. -/
theorem Run.sizes_eq {tr : List (Call β × ℕ)} (h : Run zero tr A) : sizesOf A = sizes tr := by
  induction h with
  | start => rfl
  | step hrun hstep ih => rw [sizes_append, ← ih, hstep.sizesOf hrun.apart]

end ArrayHeap
