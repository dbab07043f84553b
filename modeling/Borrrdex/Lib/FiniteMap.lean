import Mathlib.Data.Finmap
import Mathlib.Tactic

/-!
# Finite maps, and counting what they hold

Mathlib's `Finmap` gives lookups; this file adds how the multiset of entries moves under an
insertion or an erasure.  `holders p m` counts the keys of `m` whose value satisfies `p`, and the
three lemmas about it — a new key, a value replaced, a key dropped — are the bookkeeping behind
any invariant that ties a counter to the set of things that refer to it.
-/

set_option autoImplicit false

namespace FiniteMap

variable {K V : Type} [DecidableEq K]

theorem keys_insert (m : Finmap fun _ : K ↦ V) (k : K) (v : V) :
    (m.insert k v).keys = insert k m.keys := by
  ext x
  rw [Finmap.mem_keys, Finmap.mem_insert, Finset.mem_insert, Finmap.mem_keys]

/-- Looking a key up after an insertion. -/
theorem lookup_insert_eq (m : Finmap fun _ : K ↦ V) (k x : K) (v : V) :
    (m.insert k v).lookup x = if x = k then some v else m.lookup x := by
  by_cases hx : x = k
  · rw [hx, Finmap.lookup_insert, if_pos rfl]
  · rw [if_neg hx, Finmap.lookup_insert_of_ne _ hx]

/-- Looking a key up after an erasure. -/
theorem lookup_erase_eq (m : Finmap fun _ : K ↦ V) (k x : K) :
    (m.erase k).lookup x = if x = k then none else m.lookup x := by
  by_cases hx : x = k
  · rw [hx, Finmap.lookup_erase, if_pos rfl]
  · rw [if_neg hx, Finmap.lookup_erase_ne hx]

theorem erase_insert_self (m : Finmap fun _ : K ↦ V) (k : K) (v : V) :
    (m.insert k v).erase k = m.erase k := by
  apply Finmap.ext_lookup
  intro x
  rw [lookup_erase_eq, lookup_erase_eq, lookup_insert_eq]
  split <;> rfl

theorem insert_erase_self {m : Finmap fun _ : K ↦ V} {k : K} {v : V} (h : m.lookup k = some v) :
    (m.erase k).insert k v = m := by
  apply Finmap.ext_lookup
  intro x
  rw [lookup_insert_eq, lookup_erase_eq]
  by_cases hx : x = k
  · rw [if_pos hx, hx, h]
  · rw [if_neg hx, if_neg hx]

theorem insert_of_lookup {m : Finmap fun _ : K ↦ V} {k : K} {v : V} (h : m.lookup k = some v) :
    m.insert k v = m := by
  apply Finmap.ext_lookup
  intro x
  rw [lookup_insert_eq]
  by_cases hx : x = k
  · rw [if_pos hx, hx, h]
  · rw [if_neg hx]

/-- Removing a key gives up its entry and no other. -/
theorem entries_of_lookup {m : Finmap fun _ : K ↦ V} {k : K} {v : V} (h : m.lookup k = some v) :
    m.entries = ⟨k, v⟩ ::ₘ (m.erase k).entries := by
  rw [← Finmap.entries_insert_of_notMem Finmap.notMem_erase_self, insert_erase_self h]

/-! ## Counting -/

section Holders

variable (p : V → Prop) [DecidablePred p]

/-- How many keys of `m` hold a value satisfying `p`. -/
def holders (m : Finmap fun _ : K ↦ V) : ℕ :=
  m.entries.countP fun e ↦ p e.2

omit [DecidableEq K] in
@[simp] theorem holders_empty : holders p (∅ : Finmap fun _ : K ↦ V) = 0 := rfl

theorem holders_insert_of_notMem {m : Finmap fun _ : K ↦ V} {k : K} (hk : k ∉ m) (v : V) :
    holders p (m.insert k v) = holders p m + if p v then 1 else 0 := by
  rw [holders, Finmap.entries_insert_of_notMem hk, Multiset.countP_cons, holders]

/-- Erasing a key takes its holder away. -/
theorem holders_erase {m : Finmap fun _ : K ↦ V} {k : K} {v : V} (h : m.lookup k = some v) :
    holders p m = holders p (m.erase k) + if p v then 1 else 0 := by
  rw [holders, entries_of_lookup h, Multiset.countP_cons, holders]

/-- Replacing a value exchanges one holder for another. -/
theorem holders_insert {m : Finmap fun _ : K ↦ V} {k : K} {v : V} (h : m.lookup k = some v)
    (v' : V) : (holders p (m.insert k v') + if p v then 1 else 0) =
      holders p m + if p v' then 1 else 0 := by
  rw [holders_erase p (Finmap.lookup_insert (b := v') m), erase_insert_self, holders_erase p h]
  omega

/-- A value satisfying `p` is counted. -/
theorem holders_pos {m : Finmap fun _ : K ↦ V} {k : K} {v : V} (h : m.lookup k = some v)
    (hp : p v) : 0 < holders p m := by
  rw [holders_erase p h, if_pos hp]
  exact Nat.succ_pos _

theorem holders_eq_zero_iff {m : Finmap fun _ : K ↦ V} :
    holders p m = 0 ↔ ∀ k v, m.lookup k = some v → ¬ p v := by
  constructor
  · intro h k v hk hp
    exact absurd h (holders_pos p hk hp).ne'
  · intro h
    refine Multiset.countP_eq_zero.mpr fun e he ↦ h e.1 e.2 ?_
    exact Finmap.lookup_eq_some_iff.mpr he

/-- Predicates that agree on the values held count the same. -/
theorem holders_congr (q : V → Prop) [DecidablePred q] {m : Finmap fun _ : K ↦ V}
    (h : ∀ k v, m.lookup k = some v → (p v ↔ q v)) : holders p m = holders q m := by
  refine Multiset.countP_congr rfl fun e he ↦ propext ?_
  exact h e.1 e.2 (Finmap.lookup_eq_some_iff.mpr he)

end Holders

end FiniteMap
