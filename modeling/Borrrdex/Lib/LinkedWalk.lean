import Mathlib.Data.Fintype.EquivFin
import Mathlib.Logic.Relation

/-!
# Walks along links

Each element has a link to another one or none.  If there are finitely many, a walk along the links
ends if and only if it does not come to an element that leads back to itself (`exists_walk_iff`):
without a cycle the links are well-founded, and on a cycle no walk is long enough.
-/

set_option autoImplicit false

namespace LinkedWalk

universe u

variable {α : Type u} (next : α → Option α)

/-- The elements of a walk of fewer than so many steps, if it ends. -/
def walk : ℕ → α → Option (List α)
  | 0, _ => none
  | n + 1, a =>
    match next a with
    | none => some []
    | some b => (walk n b).map (a :: ·)

/-- A link. -/
def Follows (a b : α) : Prop := next a = some b

/-- No element that is come to leads back to itself. -/
def Acyclic (a : α) : Prop :=
  ∀ b, Relation.ReflTransGen (Follows next) a b → ¬ Relation.TransGen (Follows next) b b

variable {next} {a b : α} {n : ℕ} {l : List α}

theorem walk_of_follows (h : Follows next a b) :
    walk next (n + 1) a = (walk next n b).map (a :: ·) := by
  rw [walk, h]

/-- A walk that ends is shorter from the next element on. -/
theorem exists_walk_of_follows (h : Follows next a b) (hwalk : walk next n a = some l) :
    ∃ k l', k < n ∧ walk next k b = some l' := by
  match n with
  | 0 => cases hwalk
  | k + 1 =>
    rw [walk_of_follows h] at hwalk
    obtain ⟨l', hl', -⟩ := Option.map_eq_some_iff.mp hwalk
    exact ⟨k, l', Nat.lt_succ_self k, hl'⟩

theorem exists_walk_of_transGen (h : Relation.TransGen (Follows next) a b)
    (hwalk : walk next n a = some l) : ∃ k l', k < n ∧ walk next k b = some l' := by
  induction h with
  | single h => exact exists_walk_of_follows h hwalk
  | tail _ h ih =>
    obtain ⟨k, l', hk, hl'⟩ := ih
    obtain ⟨j, l'', hj, hl''⟩ := exists_walk_of_follows h hl'
    exact ⟨j, l'', hj.trans hk, hl''⟩

/-- On a cycle no walk ends. -/
theorem walk_eq_none_of_cycle (h : Relation.TransGen (Follows next) a a) (n : ℕ) :
    walk next n a = none := by
  induction n using Nat.strong_induction_on with
  | _ n ih =>
    by_contra hsome
    obtain ⟨l, hl⟩ := Option.ne_none_iff_exists'.mp hsome
    obtain ⟨k, l', hk, hl'⟩ := exists_walk_of_transGen h hl
    rw [ih k hk] at hl'
    cases hl'

theorem acyclic_of_walk (hwalk : walk next n a = some l) : Acyclic next a := by
  intro b hreach hcycle
  rcases Relation.reflTransGen_iff_eq_or_transGen.mp hreach with rfl | htrans
  · rw [walk_eq_none_of_cycle hcycle] at hwalk
    cases hwalk
  · obtain ⟨k, l', -, hl'⟩ := exists_walk_of_transGen htrans hwalk
    rw [walk_eq_none_of_cycle hcycle] at hl'
    cases hl'

/-- Without a cycle the links are well-founded, from an element on. -/
theorem exists_walk_of_acyclic [Finite α] (h : Acyclic next a) : ∃ n l, walk next n a = some l := by
  let r : {b // Relation.ReflTransGen (Follows next) a b} →
      {b // Relation.ReflTransGen (Follows next) a b} → Prop :=
    fun c b ↦ Relation.TransGen (Follows next) b.1 c.1
  have : IsTrans _ r := ⟨fun _ _ _ hcb hba ↦ hba.trans hcb⟩
  have : Std.Irrefl r := ⟨fun b ↦ h b.1 b.2⟩
  have hwf : WellFounded r := Finite.wellFounded_of_trans_of_irrefl r
  suffices hall : ∀ b : {b // Relation.ReflTransGen (Follows next) a b},
      ∃ n l, walk next n b.1 = some l from hall ⟨a, .refl⟩
  intro b
  induction b using hwf.induction with
  | _ b ih =>
    cases hnext : next b.1 with
    | none => exact ⟨1, [], by rw [walk, hnext]⟩
    | some c =>
      obtain ⟨n, l, hl⟩ := ih ⟨c, b.2.tail hnext⟩ (.single hnext)
      exact ⟨n + 1, b.1 :: l, by rw [walk_of_follows hnext, hl, Option.map_some]⟩

/-- **A walk ends if and only if it comes to no cycle.** -/
theorem exists_walk_iff [Finite α] (a : α) : (∃ n l, walk next n a = some l) ↔ Acyclic next a :=
  ⟨fun ⟨_, _, hwalk⟩ ↦ acyclic_of_walk hwalk, exists_walk_of_acyclic⟩

/-- From every element of a walk there is a link. -/
theorem exists_follows_of_mem (hwalk : walk next n a = some l) (hb : b ∈ l) :
    ∃ c, Follows next b c := by
  induction n generalizing a l with
  | zero => cases hwalk
  | succ n ih =>
    cases hnext : next a with
    | none =>
      rw [walk, hnext] at hwalk
      cases hwalk
      cases hb
    | some c =>
      rw [walk_of_follows hnext] at hwalk
      obtain ⟨l', hl', rfl⟩ := Option.map_eq_some_iff.mp hwalk
      rcases List.mem_cons.mp hb with rfl | hrest
      · exact ⟨c, hnext⟩
      · exact ih hl' hrest

end LinkedWalk
