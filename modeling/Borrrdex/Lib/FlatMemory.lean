import Mathlib.Data.BitVec
import Mathlib.Tactic

/-!
# Memory by 64-bit addresses

A memory gives each of the `2 ^ 64` addresses a byte, and address arithmetic wraps.  What is pushed
below an address `top` is followed by `depth`, the distance of an address below `top`: it is a
natural number, in which the areas that are written one after the other lie one behind the other
(`sub_down_lt_iff`), so that nothing has to be said about wrapping afterwards.

Words are eight bytes, the lowest first.  `Apart` is the condition under which a copy that is made
piece by piece is one copy (`copied_copied`).
-/

set_option autoImplicit false

namespace FlatMemory

/-- Memory, by address. -/
abbrev Mem := BitVec 64 → BitVec 8

variable {m m' m'' : Mem} {a d s top : BitVec 64} {i j k n lo mid hi : ℕ}

/-! ## Distances below an address -/

/-- How far an address is below `top`. -/
def depth (top a : BitVec 64) : ℕ := (top - a).toNat

/-- The address that is so far below `top`. -/
def down (top : BitVec 64) (k : ℕ) : BitVec 64 := top - BitVec.ofNat 64 k

theorem down_zero (top : BitVec 64) : down top 0 = top := BitVec.sub_zero top

theorem down_sub (top : BitVec 64) (k n : ℕ) :
    down top k - BitVec.ofNat 64 n = down top (k + n) := by
  rw [down, down, BitVec.ofNat_add, sub_add_eq_sub_sub]

theorem down_add (h : j ≤ k) : down top k + BitVec.ofNat 64 j = down top (k - j) := by
  have hk : BitVec.ofNat 64 k = BitVec.ofNat 64 (k - j) + BitVec.ofNat 64 j := by
    rw [← BitVec.ofNat_add, Nat.sub_add_cancel h]
  rw [down, down, hk, sub_add_eq_sub_sub, sub_add_cancel]

theorem depth_down (h : k < 2 ^ 64) : depth top (down top k) = k := by
  rw [depth, down, sub_sub_cancel, BitVec.toNat_ofNat, Nat.mod_eq_of_lt h]

theorem depth_down_add (h : j ≤ k) (hk : k < 2 ^ 64) :
    depth top (down top k + BitVec.ofNat 64 j) = k - j := by
  rw [down_add h, depth_down (by omega)]

/-- What has not come round to the other side of `top` is not further down than there is room. -/
theorem le_of_down_le (hk : k < 2 ^ 64) (h : (down top k).toNat ≤ top.toNat) : k ≤ top.toNat := by
  have hlt := top.isLt
  rw [down, BitVec.toNat_sub, BitVec.toNat_ofNat, Nat.mod_eq_of_lt hk] at h
  omega

theorem down_ne_zero (h : k < top.toNat) : down top k ≠ 0 := by
  intro hzero
  have hlt := top.isLt
  have heq : BitVec.ofNat 64 k = top := (sub_eq_zero.mp hzero).symm
  rw [← heq, BitVec.toNat_ofNat, Nat.mod_eq_of_lt (by omega)] at h
  exact lt_irrefl k h

/-- An area below `top`. -/
theorem sub_down_lt_iff (h : k + n < 2 ^ 64) : (a - down top (k + n)).toNat < n ↔
    k < depth top a ∧ depth top a ≤ k + n := by
  have heq : a - down top (k + n) = BitVec.ofNat 64 (k + n) - (top - a) := by
    rw [down]
    abel
  have hlt := (top - a).isLt
  rw [heq, depth, BitVec.toNat_sub, BitVec.toNat_ofNat, Nat.mod_eq_of_lt h]
  omega

/-- Nothing is written but below `lo` and down to `hi`. -/
def SameOutside (top : BitVec 64) (lo hi : ℕ) (m m' : Mem) : Prop :=
  ∀ a, ¬ (lo < depth top a ∧ depth top a ≤ hi) → m' a = m a

theorem SameOutside.refl (top : BitVec 64) (lo : ℕ) (m : Mem) : SameOutside top lo lo m m :=
  fun _ _ ↦ rfl

theorem SameOutside.trans (h : SameOutside top lo mid m m') (h' : SameOutside top mid hi m' m'')
    (hlo : lo ≤ mid) (hhi : mid ≤ hi) : SameOutside top lo hi m m'' := fun a ha ↦
  (h' a fun ⟨hlt, hle⟩ ↦ ha ⟨by omega, hle⟩).trans (h a fun ⟨hlt, hle⟩ ↦ ha ⟨hlt, by omega⟩)

/-! ## Copies -/

/-- What copying `n` bytes leaves. -/
def copied (d s : BitVec 64) (n : ℕ) (m : Mem) : Mem := fun a ↦
  if (a - d).toNat < n then m (s + (a - d)) else m a

/-- No byte that is to be read is one that is to be written. -/
def Apart (d s : BitVec 64) (n : ℕ) : Prop := ∀ j < n, n ≤ (s + BitVec.ofNat 64 j - d).toNat

theorem Apart.step (h : Apart d s (k + n)) (hlt : k + n < 2 ^ 64) :
    Apart (d + BitVec.ofNat 64 k) (s + BitVec.ofNat 64 k) n := by
  intro j hj
  have hkj := h (k + j) (by omega)
  have hoff : s + BitVec.ofNat 64 k + BitVec.ofNat 64 j - (d + BitVec.ofNat 64 k) =
      s + BitVec.ofNat 64 (k + j) - d - BitVec.ofNat 64 k := by
    rw [BitVec.ofNat_add]
    abel
  rw [hoff, BitVec.toNat_sub, BitVec.toNat_ofNat]
  omega

theorem Apart.mono (h : Apart d s n) (hk : k ≤ n) : Apart d s k := fun j hj ↦
  hk.trans (h j (hj.trans_le hk))

theorem copied_zero (d s : BitVec 64) (m : Mem) : copied d s 0 m = m :=
  funext fun _ ↦ if_neg (Nat.not_lt_zero _)

/-- What is still to be read, the first part does not write. -/
theorem Apart.copied_of_le (h : Apart d s (k + n)) (hj : j < k + n) :
    copied d s k m (s + BitVec.ofNat 64 j) = m (s + BitVec.ofNat 64 j) :=
  if_neg (by have := h j hj; omega)

/-- **A copy in two parts.** -/
theorem copied_copied (h : Apart d s (k + n)) (hlt : k + n < 2 ^ 64) (m : Mem) :
    copied (d + BitVec.ofNat 64 k) (s + BitVec.ofNat 64 k) n (copied d s k m) =
      copied d s (k + n) m := by
  funext a
  have hoff : a - (d + BitVec.ofNat 64 k) = a - d - BitVec.ofNat 64 k := sub_add_eq_sub_sub ..
  have hlt' := (a - d).isLt
  rw [copied, hoff]
  by_cases hrest : k ≤ (a - d).toNat ∧ (a - d).toNat < k + n
  · have hsub : (a - d - BitVec.ofNat 64 k).toNat = (a - d).toNat - k := by
      rw [BitVec.toNat_sub, BitVec.toNat_ofNat]
      omega
    have haddr : s + BitVec.ofNat 64 k + (a - d - BitVec.ofNat 64 k) =
        s + BitVec.ofNat 64 (a - d).toNat := by
      rw [BitVec.ofNat_toNat, BitVec.setWidth_eq]
      abel
    rw [if_pos (by omega), haddr, h.copied_of_le hrest.2, copied, if_pos hrest.2,
      BitVec.ofNat_toNat, BitVec.setWidth_eq]
  · rw [if_neg, copied, copied]
    · by_cases hfirst : (a - d).toNat < k
      · rw [if_pos hfirst, if_pos (by omega)]
      · rw [if_neg hfirst, if_neg (by omega)]
    · rw [BitVec.toNat_sub, BitVec.toNat_ofNat]
      omega

/-- A part of a copy is the whole of it if the rest is there already. -/
theorem copied_eq_copied_iff (hk : k ≤ n) (hlt : n < 2 ^ 64) :
    copied d s k m = copied d s n m ↔
      ∀ i, k ≤ i → i < n → m (d + BitVec.ofNat 64 i) = m (s + BitVec.ofNat 64 i) := by
  constructor
  · intro h i hki hin
    have hat := congrFun h (d + BitVec.ofNat 64 i)
    have hoff : d + BitVec.ofNat 64 i - d = BitVec.ofNat 64 i := add_sub_cancel_left ..
    rw [copied, copied, hoff, BitVec.toNat_ofNat, Nat.mod_eq_of_lt (by omega), if_pos hin,
      if_neg (by omega)] at hat
    exact hat
  · intro h
    funext a
    rw [copied, copied]
    by_cases hfirst : (a - d).toNat < k
    · rw [if_pos hfirst, if_pos (by omega)]
    · rw [if_neg hfirst]
      split
      · next hin =>
        have hat := h (a - d).toNat (by omega) hin
        rw [BitVec.ofNat_toNat, BitVec.setWidth_eq, add_sub_cancel] at hat
        exact hat
      · rfl

theorem copied_one (d s : BitVec 64) (m : Mem) : copied d s 1 m = Function.update m d (m s) := by
  funext a
  rw [copied, Function.update_apply]
  by_cases ha : a = d
  · rw [if_pos ha, ha, sub_self, if_pos (by decide), add_zero]
  · have hne : (a - d).toNat ≠ 0 := fun h ↦ ha (sub_eq_zero.mp (BitVec.eq_of_toNat_eq h))
    rw [if_neg ha, if_neg (by omega)]

theorem copied_same (h : k + n < 2 ^ 64) (s : BitVec 64) (m : Mem) :
    SameOutside top k (k + n) m (copied (down top (k + n)) s n m) := fun _ ha ↦
  if_neg fun hlt ↦ ha ((sub_down_lt_iff h).mp hlt)

/-! ## Words -/

/-- The number that `n` bytes are, the lowest first. -/
def loadBytes (m : Mem) (a : BitVec 64) : ℕ → ℕ
  | 0 => 0
  | n + 1 => (m a).toNat + 256 * loadBytes m (a + 1) n

/-- The word at an address. -/
def loadWord (m : Mem) (a : BitVec 64) : BitVec 64 := BitVec.ofNat 64 (loadBytes m a 8)

/-- A word is written. -/
def storeWord (a v : BitVec 64) (m : Mem) : Mem := fun x ↦
  if (x - a).toNat < 8 then BitVec.ofNat 8 (v.toNat / 256 ^ (x - a).toNat) else m x

theorem add_one_add (a : BitVec 64) (i : ℕ) :
    a + 1 + BitVec.ofNat 64 i = a + BitVec.ofNat 64 (i + 1) := by
  rw [Nat.add_comm, BitVec.ofNat_add, add_assoc]
  rfl

theorem loadBytes_eq {v : ℕ}
    (h : ∀ i < n, m (a + BitVec.ofNat 64 i) = BitVec.ofNat 8 (v / 256 ^ i)) :
    loadBytes m a n = v % 256 ^ n := by
  induction n generalizing a v with
  | zero => simp [loadBytes, Nat.mod_one]
  | succ n ih =>
    have hfirst := h 0 (by omega)
    have hrest : loadBytes m (a + 1) n = v / 256 % 256 ^ n := ih fun i hi ↦ by
      rw [add_one_add, h (i + 1) (by omega), Nat.pow_succ', Nat.div_div_eq_div_mul]
    rw [BitVec.add_zero, pow_zero, Nat.div_one] at hfirst
    have hbyte : (BitVec.ofNat 8 v).toNat = v % 256 := BitVec.toNat_ofNat v 8
    rw [loadBytes, hrest, hfirst, hbyte, Nat.pow_succ', Nat.mod_mul]

theorem loadBytes_congr {a' : BitVec 64}
    (h : ∀ i < n, m (a + BitVec.ofNat 64 i) = m' (a' + BitVec.ofNat 64 i)) :
    loadBytes m a n = loadBytes m' a' n := by
  induction n generalizing a a' with
  | zero => rfl
  | succ n ih =>
    have hfirst := h 0 (by omega)
    rw [BitVec.add_zero, BitVec.add_zero] at hfirst
    rw [loadBytes, loadBytes, hfirst, ih fun i hi ↦ ?_]
    rw [add_one_add, add_one_add]
    exact h (i + 1) (by omega)

theorem storeWord_add (a v : BitVec 64) (m : Mem) (hi : i < 8) :
    storeWord a v m (a + BitVec.ofNat 64 i) = BitVec.ofNat 8 (v.toNat / 256 ^ i) := by
  have hoff : (a + BitVec.ofNat 64 i - a).toNat = i := by
    rw [add_sub_cancel_left, BitVec.toNat_ofNat]
    omega
  rw [storeWord, hoff, if_pos hi]

/-- **What is written is read.** -/
theorem loadWord_storeWord (a v : BitVec 64) (m : Mem) : loadWord (storeWord a v m) a = v := by
  have hlt : v.toNat < 256 ^ 8 := v.isLt
  rw [loadWord, loadBytes_eq fun i hi ↦ storeWord_add a v m hi, Nat.mod_eq_of_lt hlt,
    BitVec.ofNat_toNat, BitVec.setWidth_eq]

theorem loadBytes_div (m : Mem) (a : BitVec 64) (hi : i < n) :
    loadBytes m a n / 256 ^ i % 256 = (m (a + BitVec.ofNat 64 i)).toNat := by
  induction n generalizing a i with
  | zero => omega
  | succ n ih =>
    have hlt := (m a).isLt
    cases i with
    | zero =>
      rw [loadBytes, pow_zero, Nat.div_one, BitVec.add_zero]
      omega
    | succ i =>
      have hdiv : ((m a).toNat + 256 * loadBytes m (a + 1) n) / 256 = loadBytes m (a + 1) n := by
        omega
      rw [loadBytes, Nat.pow_succ', ← Nat.div_div_eq_div_mul, hdiv, ih (a + 1) (by omega),
        add_one_add]

theorem loadBytes_lt (m : Mem) (a : BitVec 64) (n : ℕ) : loadBytes m a n < 256 ^ n := by
  induction n generalizing a with
  | zero => exact Nat.one_pos
  | succ n ih =>
    have hlt := (m a).isLt
    have hrest := ih (a + 1)
    rw [loadBytes, Nat.pow_succ']
    omega

/-- A number is written as `n` bytes, the lowest first. -/
def putBytes (a : BitVec 64) (n v : ℕ) (m : Mem) : Mem := fun x ↦
  if (x - a).toNat < n then BitVec.ofNat 8 (v / 256 ^ (x - a).toNat) else m x

/-- **Bytes that are loaded and stored are copied.** -/
theorem putBytes_loadBytes (d s : BitVec 64) (n : ℕ) (m : Mem) :
    putBytes d n (loadBytes m s n) m = copied d s n m := by
  funext x
  rw [putBytes, copied]
  split
  · next hlt =>
    apply BitVec.eq_of_toNat_eq
    rw [BitVec.toNat_ofNat]
    refine (loadBytes_div m s hlt).trans ?_
    rw [BitVec.ofNat_toNat, BitVec.setWidth_eq]
  · rfl

/-- A word is copied. -/
theorem storeWord_loadWord (d s : BitVec 64) (m : Mem) :
    storeWord d (loadWord m s) m = copied d s 8 m := by
  have hword : loadBytes m s 8 < 2 ^ 64 := loadBytes_lt m s 8
  have hload : (loadWord m s).toNat = loadBytes m s 8 := by
    rw [loadWord, BitVec.toNat_ofNat, Nat.mod_eq_of_lt hword]
  have hstore : storeWord d (loadWord m s) m = putBytes d 8 (loadWord m s).toNat m := rfl
  rw [hstore, hload, putBytes_loadBytes]

/-- Words are written one after the other. -/
def storeWords : BitVec 64 → List (BitVec 64) → Mem → Mem
  | _, [], m => m
  | a, v :: vs, m => storeWords (a + 8) vs (storeWord a v m)

theorem storeWord_same (h : k + 8 < 2 ^ 64) (v : BitVec 64) (m : Mem) :
    SameOutside top k (k + 8) m (storeWord (down top (k + 8)) v m) := fun _ ha ↦
  if_neg fun hlt ↦ ha ((sub_down_lt_iff h).mp hlt)

theorem down_add_eight (top : BitVec 64) (k : ℕ) : down top (k + 8) + 8 = down top k :=
  down_add (j := 8) (Nat.le_add_left 8 k)

theorem storeWords_same {vs : List (BitVec 64)} (h : k + 8 * vs.length < 2 ^ 64) (m : Mem) :
    SameOutside top k (k + 8 * vs.length) m (storeWords (down top (k + 8 * vs.length)) vs m) := by
  induction vs generalizing m with
  | nil => exact .refl top k m
  | cons v vs ih =>
    rw [List.length_cons, Nat.mul_succ, ← Nat.add_assoc] at h ⊢
    rw [storeWords, down_add_eight]
    intro a ha
    have hrest := ih (by omega) (storeWord (down top (k + 8 * vs.length + 8)) v m) a
      fun ⟨hlt, hle⟩ ↦ ha ⟨hlt, by omega⟩
    exact hrest.trans (storeWord_same h v m a fun ⟨hlt, hle⟩ ↦ ha ⟨by omega, hle⟩)

/-- The words that lie from an address on. -/
def Words (m : Mem) (a : BitVec 64) (vs : List (BitVec 64)) : Prop :=
  ∀ i, (h : i < vs.length) → loadWord m (a + BitVec.ofNat 64 (8 * i)) = vs[i]

theorem Words.append {us vs : List (BitVec 64)} (h : Words m a us)
    (h' : Words m (a + BitVec.ofNat 64 (8 * us.length)) vs) : Words m a (us ++ vs) := by
  intro i hi
  by_cases hlt : i < us.length
  · rw [h i hlt, List.getElem_append_left hlt]
  · obtain ⟨j, rfl⟩ := Nat.exists_eq_add_of_le (Nat.not_lt.mp hlt)
    have hj : j < vs.length := by
      rw [List.length_append] at hi
      omega
    have hword := h' j hj
    rw [add_assoc, ← BitVec.ofNat_add, ← Nat.mul_add] at hword
    rw [hword, List.getElem_append_right (Nat.le_add_right ..)]
    simp only [Nat.add_sub_cancel_left]

/-- A word that lies outside of what is written. -/
theorem SameOutside.loadWord (h : SameOutside top lo hi m m') (hk : k < 2 ^ 64) (hk8 : 8 ≤ k)
    (hout : k ≤ lo ∨ hi + 8 ≤ k) :
    FlatMemory.loadWord m' (down top k) = FlatMemory.loadWord m (down top k) := by
  rw [FlatMemory.loadWord, FlatMemory.loadWord, loadBytes_congr fun i hi' ↦ h _ fun hin ↦ ?_]
  rw [depth_down_add (by omega) hk] at hin
  omega

/-- **Words are read as they are written.** -/
theorem words_storeWords {vs : List (BitVec 64)} (h : k + 8 * vs.length < 2 ^ 64) (m : Mem) :
    Words (storeWords (down top (k + 8 * vs.length)) vs m) (down top (k + 8 * vs.length)) vs := by
  induction vs generalizing m with
  | nil => exact fun i hi ↦ absurd hi (Nat.not_lt_zero i)
  | cons v vs ih =>
    rw [List.length_cons, Nat.mul_succ, ← Nat.add_assoc] at h ⊢
    rw [storeWords, down_add_eight]
    intro i hi
    cases i with
    | zero =>
      rw [Nat.mul_zero, BitVec.add_zero]
      refine ((storeWords_same (by omega) _).loadWord h (by omega) (.inr le_rfl)).trans ?_
      exact loadWord_storeWord ..
    | succ i =>
      have hnext : down top (k + 8 * vs.length + 8) + BitVec.ofNat 64 (8 * (i + 1)) =
          down top (k + 8 * vs.length) + BitVec.ofNat 64 (8 * i) := by
        rw [Nat.mul_succ, Nat.add_comm (8 * i), BitVec.ofNat_add, ← add_assoc]
        exact congrArg (· + BitVec.ofNat 64 (8 * i)) (down_add_eight ..)
      rw [hnext]
      exact ih (by omega) _ i (Nat.lt_of_succ_lt_succ hi)

/-- Words that lie above what is written. -/
theorem Words.of_same {vs : List (BitVec 64)} (h : Words m (down top k) vs)
    (hsame : SameOutside top lo hi m m') (hlen : 8 * vs.length ≤ k) (hk : k < 2 ^ 64)
      (hlo : k ≤ lo) :
    Words m' (down top k) vs := by
  intro i hi
  have hword := h i hi
  rw [down_add (by omega)] at hword ⊢
  rw [hsame.loadWord (by omega) (by omega) (.inl (by omega)), hword]

/-! ## Strings -/

/-- A string without a null in it, and the null that ends it. -/
structure CString (m : Mem) (a : BitVec 64) (w : List (BitVec 8)) : Prop where
  char : ∀ i, (h : i < w.length) → m (a + BitVec.ofNat 64 i) = w[i]
  null : m (a + BitVec.ofNat 64 w.length) = 0
  ne_zero : ∀ c ∈ w, c ≠ 0

variable {w : List (BitVec 8)}

theorem CString.congr {a' : BitVec 64} (h : CString m a w)
    (heq : ∀ i ≤ w.length, m' (a' + BitVec.ofNat 64 i) = m (a + BitVec.ofNat 64 i)) :
    CString m' a' w where
  char i hi := (heq i hi.le).trans (h.char i hi)
  null := (heq _ le_rfl).trans h.null
  ne_zero := h.ne_zero

/-- Its characters, the null at the end included. -/
theorem CString.getD (h : CString m a w) {i : ℕ} (hi : i ≤ w.length) :
    m (a + BitVec.ofNat 64 i) = w.getD i 0 := by
  rcases hi.eq_or_lt with rfl | hlt
  · rw [h.null, List.getD_eq_getElem?_getD, List.getElem?_eq_none le_rfl, Option.getD_none]
  · rw [h.char i hlt, List.getD_eq_getElem?_getD, List.getElem?_eq_getElem hlt, Option.getD_some]

theorem CString.of_getD (h : ∀ i ≤ w.length, m (a + BitVec.ofNat 64 i) = w.getD i 0)
    (hne : ∀ c ∈ w, c ≠ 0) : CString m a w where
  char i hi := by
    rw [h i hi.le, List.getD_eq_getElem?_getD, List.getElem?_eq_getElem hi, Option.getD_some]
  null := by
    rw [h _ le_rfl, List.getD_eq_getElem?_getD, List.getElem?_eq_none le_rfl, Option.getD_none]
  ne_zero := hne

/-- A string has room in memory. -/
theorem CString.length_lt (h : CString m a w) : w.length < 2 ^ 64 := by
  by_contra hle
  have hi : w.length - 2 ^ 64 < w.length := by omega
  have haddr : BitVec.ofNat 64 (w.length - 2 ^ 64) = BitVec.ofNat 64 w.length := by
    apply BitVec.eq_of_toNat_eq
    rw [BitVec.toNat_ofNat, BitVec.toNat_ofNat]
    omega
  have hchar := h.char _ hi
  rw [haddr, h.null] at hchar
  exact h.ne_zero _ (List.getElem_mem hi) hchar.symm

/-- Before every null a string ends. -/
theorem exists_cString (hnull : m (a + BitVec.ofNat 64 k) = 0) :
    ∃ w, CString m a w ∧ w.length ≤ k := by
  have hex : ∃ k, m (a + BitVec.ofNat 64 k) = 0 := ⟨k, hnull⟩
  classical
  have hlen : ((List.range (Nat.find hex)).map fun i ↦ m (a + BitVec.ofNat 64 i)).length =
      Nat.find hex := by
    rw [List.length_map, List.length_range]
  refine ⟨_, ⟨fun i hi ↦ ?_, ?_, fun c hc ↦ ?_⟩, hlen.le.trans (Nat.find_min' hex hnull)⟩
  · rw [List.getElem_map, List.getElem_range]
  · rw [hlen]
    exact Nat.find_spec hex
  · obtain ⟨i, hi, rfl⟩ := List.mem_map.mp hc
    exact Nat.find_min hex (List.mem_range.mp hi)

/-- The `n` bytes from an address on. -/
def bytesFrom (m : Mem) (a : BitVec 64) (n : ℕ) : List (BitVec 8) :=
  (List.range n).map fun i ↦ m (a + BitVec.ofNat 64 i)

/-- A string is what they begin with. -/
theorem CString.bytesFrom (h : CString m a w) (hn : w.length < n) :
    ∃ rest, bytesFrom m a n = w ++ 0 :: rest := by
  obtain ⟨r, rfl⟩ := Nat.exists_eq_add_of_lt hn
  have hw : (List.range w.length).map (fun i ↦ m (a + BitVec.ofNat 64 i)) = w := by
    refine List.ext_getElem (by rw [List.length_map, List.length_range]) fun i hi hi' ↦ ?_
    rw [List.getElem_map, List.getElem_range]
    exact h.char i hi'
  rw [FlatMemory.bytesFrom, Nat.add_assoc, Nat.add_comm r, List.range_add, List.map_append, hw,
    List.map_map, List.range_add, List.map_append, List.range_one, List.map_singleton,
    Function.comp_apply, Nat.add_zero, h.null, List.singleton_append]
  exact ⟨_, rfl⟩

/-- All of memory, from an address on. -/
@[irreducible] def memoryFrom (m : Mem) (a : BitVec 64) : List (BitVec 8) :=
  bytesFrom m a (2 ^ 64)

theorem CString.memoryFrom (h : CString m a w) : ∃ rest, memoryFrom m a = w ++ 0 :: rest := by
  unfold FlatMemory.memoryFrom
  exact h.bytesFrom h.length_lt

end FlatMemory
