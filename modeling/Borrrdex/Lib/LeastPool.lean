import Mathlib.Data.Set.Card
import Mathlib.Data.Finset.Insert
import Mathlib.Order.Bounds.Basic
import Mathlib.Order.WellFounded

/-!
# A pool that hands out its least free element

The specification of an allocator that always takes the first free thing: a set of usable
elements of a linear order, and the finite set of those currently handed out.  `Pool.take` hands
one out, `Pool.give` takes one back, and an element is available when it is usable and not out.

Nothing here says how the least available element is found.  What is here is what follows from
always taking it: a pool whose available elements are finite can be emptied by taking alone
(`exists_takes_empty`), and every available element comes up on the way (`exists_takes_least`).
-/

set_option autoImplicit false

universe u

/-- A pool over a linear order: what may be handed out, and what currently is. -/
structure Pool (α : Type u) where
  /-- The elements that may be handed out. -/
  usable : Set α
  /-- The elements currently handed out. -/
  held : Finset α

namespace Pool

variable {α : Type u} [LinearOrder α]

/-- The elements that could be handed out now. -/
def available (p : Pool α) : Set α := {a | a ∈ p.usable ∧ a ∉ p.held}

/-- Hand `a` out. -/
def take (p : Pool α) (a : α) : Pool α := { p with held := insert a p.held }

/-- Take `a` back. -/
def give (p : Pool α) (a : α) : Pool α := { p with held := p.held.erase a }

omit [LinearOrder α] in
theorem mem_available {p : Pool α} {a : α} : a ∈ p.available ↔ a ∈ p.usable ∧ a ∉ p.held :=
  Iff.rfl

theorem available_take (p : Pool α) (a : α) : (p.take a).available = p.available \ {a} := by
  ext b
  simp only [mem_available, take, Finset.mem_insert, not_or, Set.mem_sdiff, Set.mem_singleton_iff]
  exact ⟨fun h ↦ ⟨⟨h.1, h.2.2⟩, h.2.1⟩, fun h ↦ ⟨h.1.1, h.2, h.1.2⟩⟩

/-- `q` is what is left of `p` after taking its least available element some number of times. -/
inductive Takes : Pool α → Pool α → Prop
  | refl (p : Pool α) : Takes p p
  | step {p q : Pool α} {a : α} (ha : IsLeast p.available a) (h : Takes (p.take a) q) : Takes p q

variable [WellFoundedLT α]

theorem exists_isLeast {p : Pool α} (hne : p.available.Nonempty) :
    ∃ a, IsLeast p.available a :=
  ⟨WellFounded.min wellFounded_lt p.available hne, WellFounded.min_mem _ _ hne,
    fun _ hb ↦ WellFounded.min_le wellFounded_lt hb⟩

omit [WellFoundedLT α] in
/-- Induction on what is left: a property holds of every pool with finitely many available
elements if it follows from itself after taking the least of them. -/
theorem induction_take {P : Pool α → Prop}
    (hstep : ∀ p : Pool α, p.available.Finite →
      (∀ a, IsLeast p.available a → P (p.take a)) → P p)
    {p : Pool α} (hfin : p.available.Finite) : P p := by
  induction hn : p.available.ncard using Nat.strong_induction_on generalizing p with
  | _ n ih =>
    refine hstep p hfin fun a ha ↦ ih _ ?_ ?_ rfl
    · rw [available_take, ← hn]
      exact Set.ncard_sdiff_singleton_lt_of_mem ha.1 hfin
    · rw [available_take]
      exact hfin.sdiff

/-- **A finite pool runs dry.** -/
theorem exists_takes_empty {p : Pool α} (hfin : p.available.Finite) :
    ∃ q, Takes p q ∧ q.available = ∅ := by
  refine induction_take (P := fun p ↦ ∃ q, Takes p q ∧ q.available = ∅) (fun p _ ih ↦ ?_) hfin
  rcases p.available.eq_empty_or_nonempty with hempty | hne
  · exact ⟨p, .refl p, hempty⟩
  · obtain ⟨a, ha⟩ := exists_isLeast hne
    obtain ⟨q, hq, hempty⟩ := ih a ha
    exact ⟨q, .step ha hq, hempty⟩

/-- **Every available element comes up**: taking the least one often enough reaches a pool whose
least available element is the one asked for. -/
theorem exists_takes_least {p : Pool α} (hfin : p.available.Finite) {b : α} :
    b ∈ p.available → ∃ q, Takes p q ∧ IsLeast q.available b := by
  refine induction_take (P := fun p ↦ b ∈ p.available → ∃ q, Takes p q ∧ IsLeast q.available b)
    (fun p _ ih hb ↦ ?_) hfin
  obtain ⟨a, ha⟩ := exists_isLeast ⟨b, hb⟩
  rcases eq_or_ne b a with rfl | hba
  · exact ⟨p, .refl p, ha⟩
  · obtain ⟨q, hq, hleast⟩ := ih a ha (by rw [available_take]; exact ⟨hb, hba⟩)
    exact ⟨q, .step ha hq, hleast⟩

end Pool
