import Borrrdex.Basic
import Mathlib.Tactic

/-!
# The descriptor table of a process

`_file_descriptors` is a `list<fs_fd_t*>`: slots that hold a pointer or null.  A file descriptor is
an `int`, and the table compares it with a `size_t`, so what it sees is the `int` with its sign
extended to 64 bits: a negative descriptor is larger than any table.  The four operations compare in
four ways, and the accessor of the list stops the machine on a miss.  The equations at the end say
what each operation comes to for a table that the kernel's memory can hold; `destroyFileDesc_eq` has
the case that does stop the machine.

`fs::close` is not called here.  An operation reports the handle that it closes.
-/

set_option autoImplicit false

namespace Borrrdex

/-- `_file_descriptors`. -/
abbrev FdTable (α : Type) := List (Option α)

/-- What an operation on the table returns, the table after it, and the handle it closed. -/
structure FdOutcome (α : Type) where
  ret : U32
  table : FdTable α
  closed : Option α

namespace FdTable

variable {α : Type}

/-- An `int` as a `size_t`. -/
def toIndex (fd : U32) : ℕ := (fd.signExtend 64).toNat

/-- `list::get`. -/
def get (t : FdTable α) (index : ℕ) : Except Halt (Option α) :=
  match t[index]? with
  | none => .error .outOfBounds
  | some slot => .ok slot

/-- `list::add`.  `room` says that the memory of the list has a cell left, or can be grown. -/
def add (room : Bool) (t : FdTable α) (slot : Option α) : Except Halt (FdTable α) :=
  if room then .ok (t ++ [slot]) else .error .outOfMemory

/-- The loop of `allocate_file_desc`, with `n` slots to go. -/
def findFree (t : FdTable α) : ℕ → Except Halt (Option ℕ)
  | 0 => .ok none
  | n + 1 => do
    let i := t.length - (n + 1)
    if (← t.get i).isNone ∧ 2 < i then return some i
    findFree t n

/-- `proc::allocate_file_desc`. -/
def allocateFileDesc (room : Bool) (t : FdTable α) (fd : Option α) : Except Halt (FdOutcome α) := do
  match ← t.findFree t.length with
  | some i => return { ret := BitVec.ofNat 32 i, table := t.set i fd, closed := none }
  | none =>
    return { ret := BitVec.ofNat 32 t.length, table := ← t.add room fd, closed := none }

/-- `proc::replace_file_desc`. -/
def replaceFileDesc (room : Bool) (t : FdTable α) (fd : U32) (ptr : α) :
    Except Halt (FdOutcome α) := do
  if toIndex fd > t.length then return { ret := 1, table := t, closed := none }
  if toIndex fd = t.length then
    return { ret := 0, table := ← t.add room (some ptr), closed := none }
  let f ← t.get (toIndex fd)
  return { ret := 0, table := t.set (toIndex fd) (some ptr), closed := f }

/-- `proc::destroy_file_desc`. -/
def destroyFileDesc (t : FdTable α) (fd : U32) : Except Halt (FdOutcome α) := do
  if toIndex fd > t.length then return { ret := 1, table := t, closed := none }
  match ← t.get (toIndex fd) with
  | some f => return { ret := 0, table := t.set (toIndex fd) none, closed := some f }
  | none => return { ret := 1, table := t, closed := none }

/-- `proc::get_file_desc`. -/
def getFileDesc (t : FdTable α) (fd : U32) : Except Halt (Option α) :=
  if toIndex fd < t.length then t.get (toIndex fd) else .ok none

/-- `proc::file_desc_count`. -/
def fileDescCount (t : FdTable α) : U32 := BitVec.ofNat 32 t.length

/-! ## What a descriptor names -/

/-- The handle that a descriptor stands for. -/
def lookup (t : FdTable α) (fd : U32) : Option α :=
  if 0 ≤ fd.toInt then t[fd.toInt.toNat]?.join else none

theorem toIndex_eq (fd : U32) :
    (toIndex fd : ℤ) = if 0 ≤ fd.toInt then fd.toInt else fd.toInt + 2 ^ 64 := by
  have hlt := fd.isLt
  rw [toIndex, BitVec.toNat_signExtend, BitVec.toInt_eq_msb_cond, BitVec.toNat_setWidth]
  split <;> omega

theorem toIndex_of_nonneg {fd : U32} (h : 0 ≤ fd.toInt) : toIndex fd = fd.toInt.toNat := by
  have := toIndex_eq fd
  rw [if_pos h] at this
  omega

theorem toNat_of_nonneg {fd : U32} (h : 0 ≤ fd.toInt) : fd.toNat = fd.toInt.toNat := by
  have hlt := fd.isLt
  rw [BitVec.toInt_eq_toNat_cond] at h ⊢
  split at h <;> omega

theorem lt_toIndex_of_neg {fd : U32} (h : fd.toInt < 0) : 2 ^ 32 < toIndex fd := by
  have := toIndex_eq fd
  have hle := BitVec.le_toInt fd
  rw [if_neg (by omega)] at this
  omega

theorem get_of_lt {t : FdTable α} {i : ℕ} (h : i < t.length) : t.get i = .ok t[i] := by
  rw [get, List.getElem?_eq_getElem h]

theorem get_length (t : FdTable α) : t.get t.length = .error .outOfBounds := by
  rw [get, List.getElem?_eq_none le_rfl]

theorem lookup_of_neg {t : FdTable α} {fd : U32} (h : fd.toInt < 0) : t.lookup fd = none :=
  if_neg (by omega)

theorem lookup_of_lt {t : FdTable α} {fd : U32} (h : 0 ≤ fd.toInt)
    (hlt : fd.toInt.toNat < t.length) : t.lookup fd = t[fd.toInt.toNat] := by
  rw [lookup, if_pos h, List.getElem?_eq_getElem hlt, Option.join_some]

theorem lookup_of_le {t : FdTable α} {fd : U32} (h : 0 ≤ fd.toInt)
    (hle : t.length ≤ fd.toInt.toNat) : t.lookup fd = none := by
  rw [lookup, if_pos h, List.getElem?_eq_none hle, Option.join_none]

/-- A descriptor that stands for a handle is the index of its slot. -/
theorem lookup_eq_some_iff {t : FdTable α} {fd : U32} {f : α} :
    t.lookup fd = some f ↔ 0 ≤ fd.toInt ∧ t[fd.toInt.toNat]? = some (some f) := by
  rw [lookup]
  split
  · next h => simp [h, Option.join_eq_some_iff]
  · next h => simp [h]

/-! ## The operations -/

/-- The tables that the kernel's memory can hold: a cell takes eight bytes, and the kernel heap is
the gigabyte below one entry of its page directory pointer table. -/
def maxSlots : ℕ := 2 ^ 27

section

variable {t : FdTable α} (ht : t.length ≤ maxSlots) (fd : U32)

include ht

theorem getFileDesc_eq : t.getFileDesc fd = .ok (t.lookup fd) := by
  simp only [maxSlots] at ht
  rw [getFileDesc]
  obtain hneg | hnonneg := lt_or_ge fd.toInt 0
  · have := lt_toIndex_of_neg hneg
    rw [if_neg (by omega), lookup_of_neg hneg]
  · rw [toIndex_of_nonneg hnonneg]
    split
    · next hlt => rw [get_of_lt hlt, lookup_of_lt hnonneg hlt]
    · next hle => rw [lookup_of_le hnonneg (by omega)]

/-- **`destroy_file_desc`** misses the table by one when the descriptor is the number of slots. -/
theorem destroyFileDesc_eq : t.destroyFileDesc fd =
    if fd.toInt = t.length then .error .outOfBounds
    else match t.lookup fd with
      | some f => .ok { ret := 0, table := t.set fd.toInt.toNat none, closed := some f }
      | none => .ok { ret := 1, table := t, closed := none } := by
  simp only [maxSlots] at ht
  rw [destroyFileDesc]
  obtain hneg | hnonneg := lt_or_ge fd.toInt 0
  · have := lt_toIndex_of_neg hneg
    rw [if_pos (by omega), if_neg (by omega), lookup_of_neg hneg]
    rfl
  · rw [toIndex_of_nonneg hnonneg]
    obtain hlt | heq | hgt := lt_trichotomy fd.toInt.toNat t.length
    · rw [if_neg (by omega), if_neg (by omega), get_of_lt hlt, lookup_of_lt hnonneg hlt]
      cases t[fd.toInt.toNat] <;> rfl
    · rw [if_neg (by omega), if_pos (by omega), heq, get_length]
      rfl
    · rw [if_pos (by omega), if_neg (by omega), lookup_of_le hnonneg (by omega)]
      rfl

theorem replaceFileDesc_eq (room : Bool) (ptr : α) : t.replaceFileDesc room fd ptr =
    if fd.toInt < 0 ∨ t.length < fd.toInt then .ok { ret := 1, table := t, closed := none }
    else if fd.toInt = t.length then
      if room then .ok { ret := 0, table := t ++ [some ptr], closed := none }
      else .error .outOfMemory
    else .ok { ret := 0, table := t.set fd.toInt.toNat (some ptr), closed := t.lookup fd } := by
  simp only [maxSlots] at ht
  rw [replaceFileDesc]
  obtain hneg | hnonneg := lt_or_ge fd.toInt 0
  · have := lt_toIndex_of_neg hneg
    rw [if_pos (by omega), if_pos (by omega)]
    rfl
  · rw [toIndex_of_nonneg hnonneg]
    obtain hlt | heq | hgt := lt_trichotomy fd.toInt.toNat t.length
    · rw [if_neg (by omega), if_neg (by omega), if_neg (by omega), if_neg (by omega),
        get_of_lt hlt, lookup_of_lt hnonneg hlt]
      rfl
    · rw [if_neg (by omega), if_pos heq, if_neg (by omega), if_pos (by omega), add]
      cases room <;> rfl
    · rw [if_pos (by omega), if_pos (by omega)]
      rfl

theorem toNat_fileDescCount : t.fileDescCount.toNat = t.length := by
  simp only [maxSlots] at ht
  rw [fileDescCount, BitVec.toNat_ofNat, Nat.mod_eq_of_lt (by omega)]

end

/-- The slots that `allocate_file_desc` may fill: unused, and not one of the first three. -/
def Free (t : FdTable α) (i : ℕ) : Prop := 2 < i ∧ t[i]? = some none

theorem Free.lt_length {t : FdTable α} {i : ℕ} (h : t.Free i) : i < t.length :=
  (List.getElem?_eq_some_iff.mp h.2).1

/-- The loop finds the least free slot of those it has to go through. -/
theorem findFree_eq (t : FdTable α) {n : ℕ} (hn : n ≤ t.length) :
    (∃ i, t.findFree n = .ok (some i) ∧ t.length - n ≤ i ∧ t.Free i ∧
        ∀ j, t.length - n ≤ j → j < i → ¬ t.Free j) ∨
      t.findFree n = .ok none ∧ ∀ j, t.length - n ≤ j → ¬ t.Free j := by
  induction n with
  | zero =>
    refine .inr ⟨rfl, fun j hj hfree ↦ ?_⟩
    have := hfree.lt_length
    omega
  | succ n ih =>
    have hlt : t.length - (n + 1) < t.length := by omega
    rw [findFree, get_of_lt hlt]
    by_cases hfree : t.Free (t.length - (n + 1))
    · refine .inl ⟨_, if_pos ⟨?_, hfree.1⟩, le_rfl, hfree, fun j h1 h2 ↦ by omega⟩
      have := hfree.2
      rw [List.getElem?_eq_getElem hlt] at this
      rw [Option.some.inj this]
      rfl
    · have hskip : ¬ (t[t.length - (n + 1)].isNone ∧ 2 < t.length - (n + 1)) := by
        rintro ⟨hnone, hpos⟩
        refine hfree ⟨hpos, ?_⟩
        rw [List.getElem?_eq_getElem hlt, Option.isNone_iff_eq_none.mp hnone]
      have hnext : ∀ j, t.length - (n + 1) ≤ j → t.Free j → t.length - n ≤ j := by
        intro j hj hj'
        have hne : j ≠ t.length - (n + 1) := fun heq ↦ hfree (heq ▸ hj')
        omega
      have hgo : (if t[t.length - (n + 1)].isNone ∧ 2 < t.length - (n + 1) then
          .ok (some (t.length - (n + 1))) else t.findFree n) = t.findFree n := if_neg hskip
      refine (ih (by omega)).imp ?_ ?_
      · rintro ⟨i, hi, hle, hfound, hleast⟩
        exact ⟨i, hgo.trans hi, by omega, hfound, fun j hj hji hj' ↦
          hleast j (hnext j hj hj') hji hj'⟩
      · rintro ⟨hi, hnone⟩
        exact ⟨hgo.trans hi, fun j hj hj' ↦ hnone j (hnext j hj hj') hj'⟩

/-- **`allocate_file_desc`** fills the least free slot, or adds one. -/
theorem allocateFileDesc_eq (t : FdTable α) (room : Bool) (fd : Option α) :
    (∃ i, t.Free i ∧ (∀ j < i, ¬ t.Free j) ∧ t.allocateFileDesc room fd =
        .ok { ret := BitVec.ofNat 32 i, table := t.set i fd, closed := none }) ∨
      (∀ j, ¬ t.Free j) ∧ t.allocateFileDesc room fd =
        if room then
          .ok { ret := BitVec.ofNat 32 t.length, table := t ++ [fd], closed := none }
        else .error .outOfMemory := by
  obtain ⟨i, hi, -, hfree, hleast⟩ | ⟨hi, hnone⟩ := t.findFree_eq le_rfl
  · refine .inl ⟨i, hfree, fun j ↦ hleast j (by omega), ?_⟩
    rw [allocateFileDesc, hi]
    rfl
  · refine .inr ⟨fun j ↦ hnone j (by omega), ?_⟩
    rw [allocateFileDesc, hi, add]
    cases room <;> rfl

end FdTable

end Borrrdex
