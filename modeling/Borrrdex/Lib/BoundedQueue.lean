import Mathlib.Data.List.Basic
import Mathlib.Tactic.Common

/-!
# Bounded queues

A `BoundedQueue α cap` holds at most `cap` items.  A write puts as many behind the others as there
is room for, and a read takes as many from the front as there are.  The queue remembers its traffic,
so that nothing is lost, invented or reordered by construction: what has come out is the first part
of what has gone in (`returned_prefix`).
-/

set_option autoImplicit false

universe u

/-- A queue, with all that it has accepted and returned. -/
structure BoundedQueue (α : Type u) (cap : ℕ) where
  items : List α
  accepted : List α
  returned : List α
  length_le : items.length ≤ cap
  conserved : accepted = returned ++ items

namespace BoundedQueue

variable {α : Type u} {cap : ℕ}

def empty (α : Type u) (cap : ℕ) : BoundedQueue α cap := ⟨[], [], [], Nat.zero_le _, rfl⟩

def room (q : BoundedQueue α cap) : ℕ := cap - q.items.length

def write (q : BoundedQueue α cap) (xs : List α) : BoundedQueue α cap where
  items := q.items ++ xs.take q.room
  accepted := q.accepted ++ xs.take q.room
  returned := q.returned
  length_le := by
    have hle := q.length_le
    rw [List.length_append, List.length_take, room]
    omega
  conserved := by rw [q.conserved, List.append_assoc]

def read (q : BoundedQueue α cap) (n : ℕ) : BoundedQueue α cap where
  items := q.items.drop n
  accepted := q.accepted
  returned := q.returned ++ q.items.take n
  length_le := by
    rw [List.length_drop]
    exact Nat.le_trans (Nat.sub_le _ _) q.length_le
  conserved := by rw [List.append_assoc, List.take_append_drop, q.conserved]

/-- **First in, first out.** -/
theorem returned_prefix (q : BoundedQueue α cap) : q.returned <+: q.accepted :=
  ⟨q.items, q.conserved.symm⟩

@[simp] theorem mem_items_write {q : BoundedQueue α cap} {xs : List α} {x : α} :
    x ∈ (q.write xs).items ↔ x ∈ q.items ∨ x ∈ xs.take q.room :=
  List.mem_append

theorem mem_of_mem_read {q : BoundedQueue α cap} {n : ℕ} {x : α} (h : x ∈ (q.read n).items) :
    x ∈ q.items :=
  List.mem_of_mem_drop h

end BoundedQueue
