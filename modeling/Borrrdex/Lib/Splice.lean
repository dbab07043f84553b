import Mathlib.Tactic

/-!
# Overwriting part of a buffer

`splice buf pos xs` is `buf` with `xs` written over it from position `pos` on, which is what a
`memcpy` into the middle of a buffer leaves.  Consecutive writes join up (`splice_splice`), and
what lies before and behind a write is untouched.
-/

set_option autoImplicit false

namespace Splice

variable {α : Type}

/-- `buf` with `xs` written at `pos`. -/
def splice (buf : List α) (pos : ℕ) (xs : List α) : List α :=
  buf.take pos ++ xs ++ buf.drop (pos + xs.length)

@[simp] theorem splice_nil (buf : List α) (pos : ℕ) : splice buf pos [] = buf := by
  simp [splice]

theorem length_splice {buf : List α} {pos : ℕ} {xs : List α} (h : pos + xs.length ≤ buf.length) :
    (splice buf pos xs).length = buf.length := by
  simp only [splice, List.length_append, List.length_take, List.length_drop]
  omega

/-- Two writes, the second where the first ended. -/
theorem splice_splice {buf : List α} {pos : ℕ} (h : pos ≤ buf.length) (xs ys : List α) :
    splice (splice buf pos xs) (pos + xs.length) ys = splice buf pos (xs ++ ys) := by
  have hlen : (buf.take pos ++ xs).length = pos + xs.length := by
    rw [List.length_append, List.length_take, Nat.min_eq_left h]
  have htake : (splice buf pos xs).take (pos + xs.length) = buf.take pos ++ xs := by
    rw [splice, ← hlen, List.take_left]
  have hdrop : (splice buf pos xs).drop (pos + xs.length + ys.length) =
      buf.drop (pos + (xs ++ ys).length) := by
    rw [splice, ← List.drop_drop, ← hlen, List.drop_left, hlen, List.drop_drop,
      List.length_append, Nat.add_assoc]
  rw [splice, htake, hdrop, splice, List.append_assoc]
  simp only [List.append_assoc]

/-- A write at the start, read back. -/
theorem take_splice_zero (buf xs : List α) : (splice buf 0 xs).take xs.length = xs := by
  simp [splice]

/-- A write over a whole buffer. -/
theorem splice_zero_of_length {buf xs : List α} (h : xs.length = buf.length) :
    splice buf 0 xs = xs := by
  simp [splice, h]

/-- Behind a write the buffer is as before. -/
theorem getElem?_splice_of_le {buf : List α} {pos : ℕ} {xs : List α}
    (h : pos + xs.length ≤ buf.length) {i : ℕ} (hi : pos + xs.length ≤ i) :
    (splice buf pos xs)[i]? = buf[i]? := by
  have hlen : (buf.take pos ++ xs).length = pos + xs.length := by
    rw [List.length_append, List.length_take, Nat.min_eq_left (by omega)]
  rw [splice, List.getElem?_append_right (hlen ▸ hi), hlen, List.getElem?_drop]
  congr 1
  omega

/-- Before the end of a write at the start of a buffer the buffer is what was written. -/
theorem getElem?_splice_zero_of_lt {buf xs : List α} {i : ℕ} (hi : i < xs.length) :
    (splice buf 0 xs)[i]? = xs[i]? := by
  rw [splice, List.take_zero, List.nil_append, List.getElem?_append_left hi]

/-! ## Parts of a list -/

/-- Four elements that are known, taken off. -/
theorem drop_four {l : List α} {f : ℕ → α} {p : ℕ} (h : ∀ j < 4, l[p + j]? = some (f j)) :
    l.drop p = f 0 :: f 1 :: f 2 :: f 3 :: l.drop (p + 4) := by
  have hcons : ∀ j < 4, l.drop (p + j) = f j :: l.drop (p + j + 1) := fun j hj ↦ by
    obtain ⟨hlt, hget⟩ := List.getElem?_eq_some_iff.mp (h j hj)
    rw [List.drop_eq_getElem_cons hlt, hget]
  rw [← Nat.add_zero p, hcons 0 (by decide), Nat.add_zero, hcons 1 (by decide),
    hcons 2 (by decide), hcons 3 (by decide)]

theorem take_drop_map_range (f : ℕ → α) {n a k : ℕ} (h : a + k ≤ n) :
    (((List.range n).map f).drop a).take k = (List.range k).map fun i ↦ f (a + i) := by
  refine List.ext_getElem (by simp; omega) fun i hi hi' ↦ ?_
  simp

/-! ## Pieces of one length, end to end -/

variable {β : Type}

theorem getElem?_flatMap {f : β → List α} {n : ℕ} (hf : ∀ b, (f b).length = n) (hn : 0 < n)
    (l : List β) (i : ℕ) : (l.flatMap f)[i]? = (l[i / n]?).bind fun b ↦ (f b)[i % n]? := by
  induction l generalizing i with
  | nil => simp
  | cons b l ih =>
    rw [List.flatMap_cons]
    rcases Nat.lt_or_ge i n with hi | hi
    · rw [List.getElem?_append_left (by rw [hf]; exact hi), Nat.div_eq_of_lt hi,
        Nat.mod_eq_of_lt hi]
      rfl
    · rw [List.getElem?_append_right (by rw [hf]; exact hi), hf, ih, ← Nat.mod_eq_sub_mod hi]
      rw [show i / n = (i - n) / n + 1 from Nat.div_eq_sub_div hn hi, List.getElem?_cons_succ]

end Splice
