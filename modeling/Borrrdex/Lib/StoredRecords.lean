import Mathlib.Data.BitVec
import Mathlib.Tactic

/-!
# Records in memory

A number is stored in bytes, the lowest first, and a record is an area in which each field has its
place.  `Fields.get_set` is the one rule for records that do not overlap: what is stored in a field
is read from this field, and from no other one.

Addresses are natural numbers, and do not wrap.
-/

set_option autoImplicit false

universe u

namespace StoredRecords

/-- Memory, by address. -/
abbrev Mem := ℕ → BitVec 8

variable {m m' : Mem} {a b n k v x : ℕ}

/-- The number that is stored in `n` bytes. -/
def load (m : Mem) (a : ℕ) : ℕ → ℕ
  | 0 => 0
  | n + 1 => (m a).toNat + 256 * load m (a + 1) n

/-- A number is stored in `n` bytes. -/
def store (a n v : ℕ) (m : Mem) : Mem := fun x ↦
  if a ≤ x ∧ x < a + n then BitVec.ofNat 8 (v / 256 ^ (x - a)) else m x

theorem store_of_not (h : ¬(a ≤ x ∧ x < a + n)) : store a n v m x = m x := if_neg h

theorem load_congr (h : ∀ i < n, m' (a + i) = m (a + i)) : load m' a n = load m a n := by
  induction n generalizing a with
  | zero => rfl
  | succ n ih =>
    have hfirst := h 0 (Nat.succ_pos n)
    rw [Nat.add_zero] at hfirst
    rw [load, load, hfirst, ih fun i hi ↦ ?_]
    rw [Nat.add_right_comm, Nat.add_assoc]
    exact h (i + 1) (by omega)

theorem load_lt (m : Mem) (a n : ℕ) : load m a n < 256 ^ n := by
  induction n generalizing a with
  | zero => exact Nat.one_pos
  | succ n ih =>
    have hbyte := (m a).isLt
    have hrest := ih (a + 1)
    rw [load, Nat.pow_succ']
    omega

theorem load_eq (h : ∀ i < n, m (a + i) = BitVec.ofNat 8 (v / 256 ^ i)) :
    load m a n = v % 256 ^ n := by
  induction n generalizing a v with
  | zero => simp [load, Nat.mod_one]
  | succ n ih =>
    have hfirst := h 0 (Nat.succ_pos n)
    rw [Nat.add_zero, pow_zero, Nat.div_one] at hfirst
    have hrest : load m (a + 1) n = v / 256 % 256 ^ n := ih fun i hi ↦ by
      rw [Nat.add_right_comm, Nat.add_assoc, h (i + 1) (by omega), Nat.pow_succ',
        Nat.div_div_eq_div_mul]
    have hbyte : (BitVec.ofNat 8 v).toNat = v % 256 := BitVec.toNat_ofNat v 8
    rw [load, hrest, hfirst, hbyte, Nat.pow_succ', Nat.mod_mul]

theorem load_store_self (a n v : ℕ) (m : Mem) : load (store a n v m) a n = v % 256 ^ n := by
  refine load_eq fun i hi ↦ ?_
  rw [store, if_pos ⟨Nat.le_add_right a i, by omega⟩, Nat.add_sub_cancel_left]

theorem load_store_of_apart (h : a + n ≤ b ∨ b + k ≤ a) :
    load (store a n v m) b k = load m b k :=
  load_congr fun i hi ↦ store_of_not (by omega)

/-! ## Fields -/

/-- The places of the fields of a record. -/
structure Fields (F : Type u) where
  /-- Where a field begins. -/
  offset : F → ℕ
  /-- How many bytes it has. -/
  width : F → ℕ
  /-- How many bytes the record has. -/
  size : ℕ
  inside : ∀ f, offset f + width f ≤ size
  apart : ∀ f g, f ≠ g → offset f + width f ≤ offset g ∨ offset g + width g ≤ offset f

namespace Fields

variable {F : Type u} (R : Fields F) {f g : F}

/-- A field is read. -/
def get (m : Mem) (a : ℕ) (f : F) : ℕ := load m (a + R.offset f) (R.width f)

/-- A field is written. -/
def set (a : ℕ) (f : F) (v : ℕ) (m : Mem) : Mem := store (a + R.offset f) (R.width f) v m

theorem get_lt (m : Mem) (a : ℕ) (f : F) : R.get m a f < 256 ^ R.width f := load_lt ..

/-- Two records are the same or do not overlap. -/
def Apart (a b : ℕ) : Prop := a = b ∨ a + R.size ≤ b ∨ b + R.size ≤ a

variable {R}

/-- **What is written in a field is read from it, and from no other one.** -/
theorem get_set [DecidableEq F] (h : R.Apart b a) (f g : F) (v : ℕ) (m : Mem) :
    R.get (R.set a f v m) b g =
      if b = a ∧ g = f then v % 256 ^ R.width f else R.get m b g := by
  have hf := R.inside f
  have hg := R.inside g
  split
  · next heq =>
    obtain ⟨rfl, rfl⟩ := heq
    exact load_store_self ..
  · next hne =>
    refine load_store_of_apart ?_
    rcases h with rfl | hlt | hlt
    · rcases R.apart f g fun heq ↦ hne ⟨rfl, heq.symm⟩ with hle | hle
      · exact .inl (by omega)
      · exact .inr (by omega)
    · exact .inr (by omega)
    · exact .inl (by omega)

theorem set_of_outside (h : x < a ∨ a + R.size ≤ x) (f : F) (v : ℕ) (m : Mem) :
    R.set a f v m x = m x := by
  have hf := R.inside f
  exact store_of_not (by omega)

theorem get_congr (h : ∀ x, a ≤ x → x < a + R.size → m' x = m x) (f : F) :
    R.get m' a f = R.get m a f := by
  have hf := R.inside f
  exact load_congr fun i hi ↦ h _ (by omega) (by omega)

end Fields
end StoredRecords
