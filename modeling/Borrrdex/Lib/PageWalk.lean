import Mathlib.Logic.Function.Basic

/-!
# Walking a tree of page tables

A machine translates an address by following it through tables of words, one level for each index
it cuts out of the address.  A word of a table but the last either is absent, or maps a large page
itself, or frames the next table; the word of the last table maps the page if it is present.

`walk` is that walk, over any memory of frames and any way of reading a word, for any number of
levels.  The tables are just frames of the memory, so a store to any frame may change the walk of
any address; `walk_table`, `walk_absent` and `walk_last` are how a proof that knows which frames
hold tables goes down one level, and `walk_congr` how one that knows which frames were written
shows that nothing has changed.
-/

set_option autoImplicit false

universe u

namespace PageWalk

variable {W : Type u}

/-- How a machine reads a word of a table.  `large` is given the number of levels that follow. -/
structure Format (W : Type u) where
  /-- The word is in use. -/
  present : W → Bool
  /-- The word maps a page itself, though levels follow. -/
  large : Nat → W → Bool
  /-- The frame it holds. -/
  frame : W → Nat

/-- Where a walk ends. -/
inductive End (W : Type u)
  /-- At a word that is absent, before the last table. -/
  | absent
  /-- At a word that maps a large page, with that many levels left. -/
  | large (levels : Nat) (word : W)
  /-- At a word of the last table, present or not. -/
  | last (word : W)

/-- Walk from a table, by the indices of an address. -/
def walk (fmt : Format W) (mem : Nat → Nat → W) : Nat → List Nat → End W
  | _, [] => .absent
  | table, [i] => .last (mem table i)
  | table, i :: j :: is =>
    if fmt.present (mem table i) then
      if fmt.large (is.length + 1) (mem table i) then .large (is.length + 1) (mem table i)
      else walk fmt mem (fmt.frame (mem table i)) (j :: is)
    else .absent

/-- What the machine makes of it: the size and the word of the page, or a fault. -/
def End.page (fmt : Format W) : End W → Option (Nat × W)
  | .absent => none
  | .large levels word => some (levels, word)
  | .last word => if fmt.present word then some (0, word) else none

variable {fmt : Format W} {mem : Nat → Nat → W} {table i j : Nat} {is : List Nat}

theorem walk_last : walk fmt mem table [i] = .last (mem table i) := rfl

theorem walk_absent (h : fmt.present (mem table i) = false) :
    walk fmt mem table (i :: j :: is) = .absent := by
  rw [walk, h, if_neg (by decide)]

theorem walk_table (hp : fmt.present (mem table i) = true)
    (hl : fmt.large (is.length + 1) (mem table i) = false) :
    walk fmt mem table (i :: j :: is) = walk fmt mem (fmt.frame (mem table i)) (j :: is) := by
  rw [walk, hp, if_pos rfl, hl, if_neg (by decide)]

theorem walk_large (hp : fmt.present (mem table i) = true)
    (hl : fmt.large (is.length + 1) (mem table i) = true) :
    walk fmt mem table (i :: j :: is) = .large (is.length + 1) (mem table i) := by
  rw [walk, hp, if_pos rfl, hl, if_pos rfl]

/-- Walks from two tables that agree on the word they start with. -/
theorem walk_of_same_word {table' : Nat} (h : mem table' i = mem table i) :
    walk fmt mem table' (i :: j :: is) = walk fmt mem table (i :: j :: is) := by
  rw [walk, walk, h]

/-- The words a walk reads. -/
def words (fmt : Format W) (mem : Nat → Nat → W) : Nat → List Nat → List W
  | _, [] => []
  | table, [i] => [mem table i]
  | table, i :: j :: is =>
    if fmt.present (mem table i) ∧ fmt.large (is.length + 1) (mem table i) = false then
      mem table i :: words fmt mem (fmt.frame (mem table i)) (j :: is)
    else [mem table i]

theorem mem_words_cons (fmt : Format W) (mem : Nat → Nat → W) (table i : Nat) (is : List Nat) :
    mem table i ∈ words fmt mem table (i :: is) := by
  cases is with
  | nil => exact List.mem_singleton_self _
  | cons j is =>
    rw [words]
    split
    · exact List.mem_cons_self
    · exact List.mem_singleton_self _

/-- The frames a walk reads. -/
def visited (fmt : Format W) (mem : Nat → Nat → W) : Nat → List Nat → List Nat
  | _, [] => []
  | table, [_] => [table]
  | table, i :: j :: is =>
    if fmt.present (mem table i) ∧ fmt.large (is.length + 1) (mem table i) = false then
      table :: visited fmt mem (fmt.frame (mem table i)) (j :: is)
    else [table]

/-- A walk depends on the frames it reads only. -/
theorem walk_congr {mem' : Nat → Nat → W} : ∀ {table : Nat} {path : List Nat},
    (∀ f ∈ visited fmt mem table path, mem' f = mem f) →
      walk fmt mem' table path = walk fmt mem table path
  | _, [], _ => rfl
  | table, [i], h => by rw [walk, walk, h table (by simp [visited])]
  | table, i :: j :: is, h => by
    have htable : mem' table = mem table := by
      refine h table ?_
      rw [visited]
      split
      · exact List.mem_cons_self
      · exact List.mem_singleton_self table
    rw [walk, walk, htable]
    by_cases hp : fmt.present (mem table i) = true
    · cases hl : fmt.large (is.length + 1) (mem table i) with
      | true => rfl
      | false =>
        rw [visited, if_pos ⟨hp, hl⟩] at h
        rw [if_pos hp, if_pos hp]
        exact walk_congr fun f hf ↦ h f (List.mem_cons_of_mem _ hf)
    · rw [if_neg hp, if_neg hp]

end PageWalk
