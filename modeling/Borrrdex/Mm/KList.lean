import Mathlib.Data.List.InsertIdx
import Mathlib.Logic.Function.Basic

/-!
# The kernel's array list

`list<T>` of `Kernel/include/klist.hpp`: a block of memory of which the first `_size` cells are in
use, doubled when it is full.  `insert` makes room by moving the cells behind the new one up, one at
a time and from the end.  The theorems say that on the cells in use `add` and `insert` are what they
should be, once they are through.

They need not get through.  `grow` panics if `realloc` has no memory, and the cell behind the last
one is assigned to although no `T` has been constructed there, so that the copy assignment of `T`
finds whatever `malloc` or `realloc` left in it.  This is `insertion`, which a caller has to ask
where it matters; `add` and `insert` are the lists that the two functions then leave.
-/

set_option autoImplicit false

namespace Borrrdex

universe u

/-- `list<T>`.  The memory holds something in every cell, also in those not in use. -/
structure KList (α : Type u) where
  /-- `_size`. -/
  size : Nat
  /-- `_capacity`. -/
  capacity : Nat
  /-- `_mem`. -/
  mem : Nat → α
  /-- The cells in use are inside the memory. -/
  size_le : size ≤ capacity
  /-- There is memory to double. -/
  capacity_pos : 0 < capacity

namespace KList

variable {α : Type u}

/-- `list(size_t capacity)`, on memory that holds `garbage`. -/
def ofCapacity (capacity : Nat) (hpos : 0 < capacity) (garbage : Nat → α) : KList α :=
  ⟨0, capacity, garbage, Nat.zero_le capacity, hpos⟩

/-- The cells in use. -/
def toList (l : KList α) : List α := (List.range l.size).map l.mem

/-- The capacity once there is room for one more: `grow` if the memory is full. -/
def grownCapacity (l : KList α) : Nat := if l.capacity ≤ l.size then l.capacity * 2 else l.capacity

theorem size_lt_grownCapacity (l : KList α) : l.size < l.grownCapacity := by
  have h1 := l.size_le
  have h2 := l.capacity_pos
  rw [grownCapacity]
  split <;> omega

/-- The list that `add` leaves, if it gets through. -/
def add (l : KList α) (item : α) : KList α where
  size := l.size + 1
  capacity := l.grownCapacity
  mem := Function.update l.mem l.size item
  size_le := l.size_lt_grownCapacity
  capacity_pos := Nat.lt_of_le_of_lt (Nat.zero_le _) l.size_lt_grownCapacity

/-- The loop of `insert`: move the cells from `pos` on up, beginning with cell `i`. -/
def shiftUp (pos : Nat) : Nat → (Nat → α) → Nat → α
  | 0, mem => mem
  | i + 1, mem =>
    if pos < i + 1 then shiftUp pos i (Function.update mem (i + 1) (mem i)) else mem

/-- The list that `insert` leaves at a position, if it gets through. -/
def insert (l : KList α) (pos : Nat) (obj : α) : KList α :=
  if pos = l.size then l.add obj
  else
    { size := l.size + 1
      capacity := l.grownCapacity
      mem := Function.update (shiftUp pos l.size l.mem) pos obj
      size_le := l.size_lt_grownCapacity
      capacity_pos := Nat.lt_of_le_of_lt (Nat.zero_le _) l.size_lt_grownCapacity }

/-- What `list<T>` asks of its surroundings. -/
structure Cells (α : Type u) where
  /-- `realloc` finds memory for that many cells. -/
  grows : Nat → Bool
  /-- The copy assignment of `T` gets along with this in the cell that it assigns to. -/
  assignable : α → Bool

/-- How a call of `add` or `insert` goes. -/
inductive Insertion
  /-- It leaves the list that it should. -/
  | through
  /-- `grow` panics. -/
  | noMemory
  /-- The assignment takes what it finds in the cell behind the last one for a `T`. -/
  | stray
  deriving DecidableEq

/-- How it goes on this list.  The other cells that are assigned to hold a `T`, and one that is in
the next cell as well. -/
def insertion (cells : Cells α) (l : KList α) : Insertion :=
  if l.capacity ≤ l.size ∧ cells.grows l.grownCapacity = false then .noMemory
  else if cells.assignable (l.mem l.size) then .through
  else .stray

/-- Change a cell through a reference to it. -/
def modify (l : KList α) (pos : Nat) (f : α → α) : KList α :=
  { l with mem := Function.update l.mem pos (f (l.mem pos)) }

theorem insertion_eq_through {cells : Cells α} {l : KList α} :
    l.insertion cells = .through ↔ (l.capacity ≤ l.size → cells.grows l.grownCapacity = true) ∧
      cells.assignable (l.mem l.size) = true := by
  rw [insertion]
  split
  · next h => simp [h.1, h.2]
  · next h =>
    have hgrows : l.capacity ≤ l.size → cells.grows l.grownCapacity = true := by simpa using h
    split
    · next hcell => exact ⟨fun _ ↦ ⟨hgrows, hcell⟩, fun _ ↦ rfl⟩
    · next hcell => exact ⟨fun h ↦ Insertion.noConfusion h, fun h ↦ absurd h.2 hcell⟩

/-! ## The cells in use -/

@[simp] theorem toList_ofCapacity {capacity : Nat} {hpos : 0 < capacity} {garbage : Nat → α} :
    (ofCapacity capacity hpos garbage).toList = [] := rfl

@[simp] theorem length_toList (l : KList α) : l.toList.length = l.size := by
  rw [toList, List.length_map, List.length_range]

theorem getElem?_toList (l : KList α) (i : Nat) :
    l.toList[i]? = if i < l.size then some (l.mem i) else none := by
  rw [toList, List.getElem?_map]
  split
  · next hi => rw [List.getElem?_range hi, Option.map_some]
  · next hi => rw [List.getElem?_eq_none (by simpa using hi), Option.map_none]

theorem shiftUp_apply (pos : Nat) : ∀ (i : Nat) (mem : Nat → α) (j : Nat),
    shiftUp pos i mem j = if pos < j ∧ j ≤ i then mem (j - 1) else mem j
  | 0, mem, j => by rw [shiftUp, if_neg (by omega)]
  | i + 1, mem, j => by
    rw [shiftUp]
    split
    · next hpos =>
      rw [shiftUp_apply pos i]
      by_cases hj : j = i + 1
      · subst hj
        rw [if_neg (by omega), if_pos (by omega), Function.update_self]
        rfl
      · rw [Function.update_of_ne hj]
        by_cases hin : pos < j ∧ j ≤ i
        · rw [if_pos hin, if_pos (by omega), Function.update_of_ne (by omega)]
        · rw [if_neg hin, if_neg (by omega)]
    · rw [if_neg (by omega)]

theorem toList_add (l : KList α) (item : α) : (l.add item).toList = l.toList ++ [item] := by
  refine List.ext_getElem? fun i ↦ ?_
  rw [getElem?_toList, List.getElem?_append, length_toList, getElem?_toList]
  show (if i < l.size + 1 then some (Function.update l.mem l.size item i) else none) = _
  rcases Nat.lt_trichotomy i l.size with h | h | h
  · rw [if_pos (by omega), if_pos h, Function.update_of_ne (by omega), if_pos h]
  · rw [if_pos (by omega), if_neg (by omega), h, Function.update_self, Nat.sub_self]
    rfl
  · rw [if_neg (by omega), if_neg (by omega), List.getElem?_eq_none (by simp; omega)]

/-- **`insert` inserts.** -/
theorem toList_insert (l : KList α) {pos : Nat} (hpos : pos ≤ l.size) (obj : α) :
    (l.insert pos obj).toList = l.toList.insertIdx pos obj := by
  rw [insert]
  split
  · next heq =>
    rw [toList_add, heq, ← length_toList, List.insertIdx_length_self]
  · next hne =>
    refine List.ext_getElem? fun i ↦ ?_
    rw [getElem?_toList, List.getElem?_insertIdx, length_toList, getElem?_toList, getElem?_toList]
    show (if i < l.size + 1 then
      some (Function.update (shiftUp pos l.size l.mem) pos obj i) else none) = _
    rcases Nat.lt_trichotomy i pos with h | h | h
    · rw [if_pos (by omega), Function.update_of_ne (by omega), shiftUp_apply, if_neg (by omega),
        if_pos h, if_pos (by omega)]
    · rw [if_pos (by omega), h, Function.update_self, if_neg (by omega), if_pos rfl,
        if_pos (by omega)]
    · rw [Function.update_of_ne (by omega), shiftUp_apply, if_neg (by omega : ¬i < pos),
        if_neg (by omega : ¬i = pos)]
      by_cases hi : i < l.size + 1
      · rw [if_pos hi, if_pos (by omega), if_pos (by omega)]
      · rw [if_neg hi, if_neg (by omega)]

theorem mem_insert_self (l : KList α) (pos : Nat) (obj : α) : (l.insert pos obj).mem pos = obj := by
  rw [insert]
  split
  · next heq =>
    rw [heq]
    exact Function.update_self ..
  · exact Function.update_self ..

theorem size_insert (l : KList α) (pos : Nat) (obj : α) : (l.insert pos obj).size = l.size + 1 := by
  rw [insert]
  split <;> rfl

/-- The cells not in use stay as they are. -/
theorem mem_insert_of_size_lt (l : KList α) {pos : Nat} (hpos : pos ≤ l.size) (obj : α) {i : Nat}
    (hi : l.size < i) : (l.insert pos obj).mem i = l.mem i := by
  rw [insert]
  split
  · exact Function.update_of_ne (by omega) _ _
  · show Function.update (shiftUp pos l.size l.mem) pos obj i = _
    rw [Function.update_of_ne (by omega), shiftUp_apply, if_neg (by omega)]

/-- Changing the cell just inserted is as good as inserting the changed one. -/
theorem modify_insert (l : KList α) (pos : Nat) (obj : α) (f : α → α) :
    (l.insert pos obj).modify pos f = l.insert pos (f obj) := by
  rw [modify, mem_insert_self, insert, insert]
  split
  · next heq => simp only [heq, add, Function.update_idem]
  · simp only [Function.update_idem]

end KList
end Borrrdex
