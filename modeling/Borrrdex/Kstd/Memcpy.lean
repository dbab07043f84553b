import Borrrdex.Basic
import Mathlib.Tactic

/-!
# The kernel's `memcpy`

It copies forward: eight bytes at a time while both pointers are aligned and eight are left, then
one at a time.  The data streams use it on overlapping ranges, to move what is left of a buffer to
its front, so the copy is modelled step by step on one memory.

A forward copy is right whenever the destination starts at or before the source, or behind its end
(`Forward`), and a step of either size leaves the rest of the job in that shape; what `memcpy`
leaves is then as for disjoint ranges (`memcpy_apply`).
-/

set_option autoImplicit false

namespace Borrrdex

/-- Memory, by address. -/
abbrev ByteMem := ℕ → Byte

/-- `while(n--) *d++ = *s++`, on bytes. -/
def copyBytes : ℕ → ℕ → ℕ → ByteMem → ByteMem
  | 0, _, _, m => m
  | n + 1, d, s, m => copyBytes n (d + 1) (s + 1) (Function.update m d (m s))

/-- `*d = *s`, on words. -/
def copyWord (d s : ℕ) (m : ByteMem) : ByteMem :=
  fun a ↦ if d ≤ a ∧ a < d + 8 then m (s + (a - d)) else m a

/-- The loop on words, `n` of them. -/
def copyWords : ℕ → ℕ → ℕ → ByteMem → ByteMem
  | 0, _, _, m => m
  | n + 1, d, s, m => copyWords n (d + 8) (s + 8) (copyWord d s m)

/-- `memcpy(dest, src, n)`.  The first loop stops with fewer than eight bytes left. -/
def memcpy (dest src n : ℕ) (m : ByteMem) : ByteMem :=
  if dest % 8 = 0 ∧ src % 8 = 0 then
    copyBytes (n % 8) (dest + 8 * (n / 8)) (src + 8 * (n / 8)) (copyWords (n / 8) dest src m)
  else copyBytes n dest src m

/-- A forward copy from `s` to `d` reads nothing it has written. -/
def Forward (d s n : ℕ) : Prop := d ≤ s ∨ s + n ≤ d

/-- What a copy should leave. -/
def moved (d s n : ℕ) (m : ByteMem) : ByteMem :=
  fun a ↦ if d ≤ a ∧ a < d + n then m (s + (a - d)) else m a

theorem moved_zero (d s : ℕ) (m : ByteMem) : moved d s 0 m = m := by
  funext a
  rw [moved, if_neg (by omega)]

/-- A step of `k` bytes and the rest of the copy. -/
theorem moved_moved {d s k n : ℕ} (h : Forward d s (k + n)) (m : ByteMem) :
    moved (d + k) (s + k) n (moved d s k m) = moved d s (k + n) m := by
  unfold Forward at h
  funext a
  simp only [moved]
  by_cases hrest : d + k ≤ a ∧ a < d + k + n
  · rw [if_pos hrest, if_neg (by omega), if_pos (by omega)]
    congr 1
    omega
  · rw [if_neg hrest]
    by_cases hfirst : d ≤ a ∧ a < d + k
    · rw [if_pos hfirst, if_pos (by omega)]
    · rw [if_neg hfirst, if_neg (by omega)]

theorem Forward.step {d s k n : ℕ} (h : Forward d s (k + n)) : Forward (d + k) (s + k) n := by
  unfold Forward at h ⊢
  omega

theorem Forward.mono {d s n n' : ℕ} (h : Forward d s n) (hle : n' ≤ n) : Forward d s n' := by
  unfold Forward at h ⊢
  omega

theorem update_eq_moved (d s : ℕ) (m : ByteMem) : Function.update m d (m s) = moved d s 1 m := by
  funext a
  rw [moved, Function.update_apply]
  by_cases ha : a = d
  · rw [if_pos ha, if_pos (by omega), ha, Nat.sub_self, Nat.add_zero]
  · rw [if_neg ha, if_neg (by omega)]

theorem copyBytes_eq_moved {n d s : ℕ} (h : Forward d s n) (m : ByteMem) :
    copyBytes n d s m = moved d s n m := by
  induction n generalizing d s m with
  | zero => exact (moved_zero d s m).symm
  | succ n ih =>
    rw [Nat.add_comm] at h
    rw [copyBytes, update_eq_moved, ih h.step, moved_moved h, Nat.add_comm]

theorem copyWords_eq_moved {n d s : ℕ} (h : Forward d s (8 * n)) (m : ByteMem) :
    copyWords n d s m = moved d s (8 * n) m := by
  induction n generalizing d s m with
  | zero => exact (moved_zero d s m).symm
  | succ n ih =>
    rw [Nat.mul_succ, Nat.add_comm] at h
    have hword : copyWord d s m = moved d s 8 m := rfl
    rw [copyWords, hword, ih h.step, moved_moved h, Nat.mul_succ, Nat.add_comm]

/-- **What `memcpy` leaves**, also where the ranges overlap and the destination comes first, and
whichever of the loops do the work. -/
theorem memcpy_apply {d s n : ℕ} (h : Forward d s n) (m : ByteMem) (a : ℕ) :
    memcpy d s n m a = if d ≤ a ∧ a < d + n then m (s + (a - d)) else m a := by
  have hn : 8 * (n / 8) + n % 8 = n := Nat.div_add_mod n 8
  rw [memcpy]
  split
  · have h' : Forward d s (8 * (n / 8) + n % 8) := hn.symm ▸ h
    rw [copyBytes_eq_moved h'.step, copyWords_eq_moved (h.mono (by omega)), moved_moved h', hn]
    rfl
  · rw [copyBytes_eq_moved h]
    rfl

/-- The `n` bytes from `a` on. -/
def bytesAt (m : ByteMem) (a n : ℕ) : List Byte := (List.range n).map fun i ↦ m (a + i)

@[simp] theorem length_bytesAt (m : ByteMem) (a n : ℕ) : (bytesAt m a n).length = n := by
  simp [bytesAt]

theorem getElem_bytesAt {m : ByteMem} {a n i : ℕ} (h : i < (bytesAt m a n).length) :
    (bytesAt m a n)[i] = m (a + i) := by
  simp [bytesAt]

/-- Two memories that agree on a range hold the same bytes there. -/
theorem bytesAt_congr {m m' : ByteMem} {a a' n : ℕ} (h : ∀ i < n, m (a + i) = m' (a' + i)) :
    bytesAt m a n = bytesAt m' a' n :=
  List.map_congr_left fun i hi ↦ h i (List.mem_range.mp hi)

end Borrrdex
