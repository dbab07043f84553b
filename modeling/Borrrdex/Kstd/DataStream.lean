import Borrrdex.Kstd.Memcpy

/-!
# The buffer behind a pipe

A `data_stream` is a heap block whose first `_buffer_pos` bytes are waiting to be read.  A write
doubles the block until the new bytes fit and puts them behind the others; a read takes bytes from
the front and moves the rest down over them.

`realloc` is a parameter.  What the stream relies on is in `Reallocates`: the bytes of a block come
along when it grows, and blocks lie apart from the memory of the callers.  `Holds` is what the
stream is for, a queue of bytes, and each operation acts on the queue as on a list.

Both operations hold `_stream_lock` from beginning to end, so that a call is one step, and the word
is 0 between calls.  The constructor does not set it: it is 0 at first only if the memory the stream
was put into is.
-/

set_option autoImplicit false

namespace Borrrdex

/-- `data_stream`. -/
structure DataStream where
  streamLock : U32
  bufferSize : U64
  bufferPos : U64
  buffer : ℕ

/-- `realloc(ptr, size)` for a block of `old` bytes: the new block, and memory after the move. -/
abbrev Realloc := ℕ → U64 → U64 → ByteMem → ℕ × ByteMem

/-- `kstd::min`, on `size_t`. -/
def minU64 (x y : U64) : U64 := if x > y then y else x

theorem toNat_minU64 (a b : U64) : (minU64 a b).toNat = min a.toNat b.toNat := by
  rw [minU64]
  split
  · rename_i h
    rw [Nat.min_eq_right (Nat.le_of_lt (BitVec.lt_def.mp h))]
  · rename_i h
    rw [Nat.min_eq_left (Nat.le_of_not_lt fun h' ↦ h (BitVec.lt_def.mpr h'))]

namespace DataStream

/-- `while(_buffer_pos + len >= _buffer_size) _buffer_size *= 2`. -/
def growLoop (need : U64) : ℕ → U64 → Option U64
  | 0, _ => none
  | fuel + 1, size => if size ≤ need then growLoop need fuel (size * 2) else some size

/-- Making room for `len` more bytes.  Sixty-five rounds are more than the loop can make without
overflowing. -/
def reserve (realloc : Realloc) (s : DataStream) (len : U64) (m : ByteMem) :
    Option (DataStream × ByteMem) :=
  if s.bufferSize ≤ s.bufferPos + len then
    (growLoop (s.bufferPos + len) 65 s.bufferSize).map fun size ↦
      let r := realloc s.buffer s.bufferSize size m
      ({ s with bufferSize := size, buffer := r.1 }, r.2)
  else some (s, m)

/-- `data_stream::write(data, len)`.  It does not return when `acquire_lock` never finds the word 0,
or when the size has become 0 by doubling. -/
def write (realloc : Realloc) (s : DataStream) (data : ℕ) (len : U64) (m : ByteMem) :
    Option (U64 × DataStream × ByteMem) :=
  if s.streamLock ≠ 0 then none
  else (s.reserve realloc len m).map fun r ↦
    (len, { r.1 with bufferPos := r.1.bufferPos + len },
      memcpy (r.1.buffer + r.1.bufferPos.toNat) data len.toNat r.2)

/-- `data_stream::read(data, len)`.  It does not return when `acquire_lock` never finds the word
0. -/
def read (s : DataStream) (data : ℕ) (len : U64) (m : ByteMem) :
    Option (U64 × DataStream × ByteMem) :=
  if s.streamLock ≠ 0 then none
  else
    let len := minU64 len s.bufferPos
    if len = 0 then some (0, s, m)
    else
      let m := memcpy data s.buffer len.toNat m
      let m := memcpy s.buffer (s.buffer + len.toNat) (s.bufferPos - len).toNat m
      some (len, { s with bufferPos := s.bufferPos - len }, m)

/-- `empty()`. -/
def empty (s : DataStream) : Bool := s.bufferPos = 0

end DataStream

/-- What is relied on of `realloc`, with `callers` the memory the callers' buffers lie in. -/
structure Reallocates (realloc : Realloc) (callers : Set ℕ) : Prop where
  keeps : ∀ p old size m i, i < old.toNat → old ≤ size →
    (realloc p old size m).2 ((realloc p old size m).1 + i) = m (p + i)
  apart : ∀ p old size m i, i < size.toNat → (realloc p old size m).1 + i ∉ callers
  frame : ∀ p old size m a, a ∈ callers → (realloc p old size m).2 a = m a

/-- The stream holds the bytes `q`, and no call is under way.  Its size is a power of two, so that
doubling it does not overflow before it is large enough. -/
structure DataStream.Holds (callers : Set ℕ) (s : DataStream) (m : ByteMem) (q : List Byte) :
    Prop where
  unlocked : s.streamLock = 0
  contents : bytesAt m s.buffer s.bufferPos.toNat = q
  fits : s.bufferPos < s.bufferSize
  pow : ∃ k ≤ 63, s.bufferSize.toNat = 2 ^ k
  apart : ∀ i < s.bufferSize.toNat, s.buffer + i ∉ callers

namespace DataStream

variable {realloc : Realloc} {callers : Set ℕ} {s : DataStream} {m : ByteMem} {q : List Byte}

theorem Holds.length (h : s.Holds callers m q) : s.bufferPos.toNat = q.length := by
  rw [← h.contents, length_bytesAt]

theorem Holds.empty_iff (h : s.Holds callers m q) : s.empty = true ↔ q = [] := by
  rw [DataStream.empty, decide_eq_true_eq, ← List.length_eq_zero_iff, ← h.length]
  exact ⟨fun h0 ↦ by rw [h0]; rfl, fun h0 ↦ BitVec.eq_of_toNat_eq h0⟩

/-- What the callers do in their own memory does not matter. -/
theorem Holds.congr (h : s.Holds callers m q) {m' : ByteMem} (hm : ∀ a ∉ callers, m' a = m a) :
    s.Holds callers m' q := by
  have hfits : s.bufferPos.toNat < s.bufferSize.toNat := BitVec.lt_def.mp h.fits
  refine ⟨h.unlocked, ?_, h.fits, h.pow, h.apart⟩
  rw [← h.contents]
  exact bytesAt_congr fun i hi ↦ hm _ (h.apart i (Nat.lt_trans hi hfits))

theorem growLoop_spec {need : U64} (hneed : need.toNat < 2 ^ 63) (fuel k : ℕ) (hk : k ≤ 63)
    (hfuel : 64 ≤ fuel + k) {size : U64} (hsize : size.toNat = 2 ^ k) :
    ∃ size', growLoop need fuel size = some size' ∧ need < size' ∧ size ≤ size' ∧
      ∃ k' ≤ 63, size'.toNat = 2 ^ k' := by
  induction fuel generalizing k size with
  | zero => omega
  | succ fuel ih =>
    rw [growLoop]
    by_cases hle : size ≤ need
    · have hlt : 2 ^ k < 2 ^ 63 := by
        rw [← hsize]
        exact Nat.lt_of_le_of_lt (BitVec.le_def.mp hle) hneed
      have hk' : k < 63 := (Nat.pow_lt_pow_iff_right (by norm_num)).mp hlt
      have hdouble : (size * 2).toNat = 2 ^ (k + 1) := by
        rw [BitVec.toNat_mul, hsize, pow_succ, show (2 : U64).toNat = 2 from rfl]
        exact Nat.mod_eq_of_lt (by omega)
      obtain ⟨size', hloop, hneed', hge, hpow⟩ := ih (k + 1) hk' (by omega) hdouble
      refine ⟨size', by rw [if_pos hle, hloop], hneed', ?_, hpow⟩
      rw [BitVec.le_def] at hge ⊢
      rw [hdouble, pow_succ] at hge
      omega
    · exact ⟨size, if_neg hle, BitVec.not_le.mp hle, BitVec.le_refl size, k, hk, hsize⟩

/-- Making room changes neither the queue nor the callers' memory. -/
theorem reserve_spec (hr : Reallocates realloc callers) (h : s.Holds callers m q) {len : U64}
    (hlen : s.bufferPos.toNat + len.toNat < 2 ^ 63) :
    ∃ s' m', s.reserve realloc len m = some (s', m') ∧ s'.Holds callers m' q ∧
      s'.bufferPos = s.bufferPos ∧ s'.bufferPos + len < s'.bufferSize ∧
      ∀ a ∈ callers, m' a = m a := by
  have hsum : (s.bufferPos + len).toNat = s.bufferPos.toNat + len.toNat := by
    rw [BitVec.toNat_add]
    exact Nat.mod_eq_of_lt (by omega)
  rw [reserve]
  by_cases hle : s.bufferSize ≤ s.bufferPos + len
  · obtain ⟨k, hk, hpow⟩ := h.pow
    obtain ⟨size, hloop, hneed, hge, hpow'⟩ :=
      growLoop_spec (hsum ▸ hlen) 65 k hk (by omega) hpow
    rw [if_pos hle, hloop, Option.map_some]
    refine ⟨_, _, rfl, ?_, rfl, hneed, hr.frame _ _ _ _⟩
    have hfits : s.bufferPos.toNat < s.bufferSize.toNat := BitVec.lt_def.mp h.fits
    refine ⟨h.unlocked, ?_, ?_, hpow', hr.apart _ _ _ _⟩
    · rw [← h.contents]
      exact bytesAt_congr fun i hi ↦ hr.keeps _ _ _ _ i (Nat.lt_trans hi hfits) hge
    · rw [BitVec.le_def] at hge
      rw [BitVec.lt_def]
      show s.bufferPos.toNat < size.toNat
      omega
  · rw [if_neg hle]
    exact ⟨s, m, rfl, h, rfl, BitVec.not_le.mp hle, fun _ _ ↦ rfl⟩

/-- **A write appends**, and returns the number of bytes written. -/
theorem write_spec (hr : Reallocates realloc callers) (h : s.Holds callers m q) (data : ℕ)
    (len : U64) (hdata : ∀ i < len.toNat, data + i ∈ callers)
    (hlen : s.bufferPos.toNat + len.toNat < 2 ^ 63) :
    ∃ s' m', s.write realloc data len m = some (len, s', m') ∧
      s'.Holds callers m' (q ++ bytesAt m data len.toNat) ∧ ∀ a ∈ callers, m' a = m a := by
  obtain ⟨s₁, m₁, hres, h₁, hpos, hroom, hframe⟩ := reserve_spec hr h hlen
  have hsum : (s₁.bufferPos + len).toNat = s₁.bufferPos.toNat + len.toNat := by
    rw [BitVec.toNat_add, hpos]
    exact Nat.mod_eq_of_lt (by omega)
  have hroom' : s₁.bufferPos.toNat + len.toNat < s₁.bufferSize.toNat := by
    rw [← hsum]
    exact BitVec.lt_def.mp hroom
  -- The new bytes come from the callers' memory, where the block is not.
  have hfwd : Forward (s₁.buffer + s₁.bufferPos.toNat) data len.toNat := by
    by_contra hcon
    simp only [Forward, not_or, not_le] at hcon
    have hin := hdata (s₁.buffer + s₁.bufferPos.toNat - data) (by omega)
    rw [show data + (s₁.buffer + s₁.bufferPos.toNat - data) =
      s₁.buffer + s₁.bufferPos.toNat by omega] at hin
    exact h₁.apart _ (by omega) hin
  have hcontents : bytesAt (memcpy (s₁.buffer + s₁.bufferPos.toNat) data len.toNat m₁) s₁.buffer
      (s₁.bufferPos + len).toNat = q ++ bytesAt m data len.toNat := by
    refine List.ext_getElem ?_ fun i hi hi' ↦ ?_
    · rw [length_bytesAt, List.length_append, length_bytesAt, ← h₁.length, hsum]
    · rw [length_bytesAt, hsum] at hi
      rw [getElem_bytesAt, memcpy_apply hfwd]
      by_cases hold : i < s₁.bufferPos.toNat
      · rw [if_neg (by omega), List.getElem_append_left (h₁.length ▸ hold)]
        simp only [← h₁.contents, getElem_bytesAt]
      · rw [if_pos (by omega), List.getElem_append_right (by rw [← h₁.length]; omega),
          getElem_bytesAt, ← h₁.length,
          show s₁.buffer + i - (s₁.buffer + s₁.bufferPos.toNat) = i - s₁.bufferPos.toNat by omega]
        exact hframe _ (hdata _ (by omega))
  have houtside : ∀ a ∈ callers,
      memcpy (s₁.buffer + s₁.bufferPos.toNat) data len.toNat m₁ a = m a := by
    intro a ha
    rw [memcpy_apply hfwd, if_neg, hframe a ha]
    intro hin
    refine h₁.apart (a - s₁.buffer) (by omega) ?_
    rwa [show s₁.buffer + (a - s₁.buffer) = a by omega]
  rw [write, if_neg (not_not.mpr h.unlocked), hres, Option.map_some]
  exact ⟨_, _, rfl, ⟨h₁.unlocked, hcontents, hroom, h₁.pow, h₁.apart⟩, houtside⟩

/-- **A read takes bytes from the front**: as many as are asked for and there are.  Nothing else in
the callers' memory changes. -/
theorem read_spec (h : s.Holds callers m q) (data : ℕ) (len : U64)
    (hdata : ∀ i < len.toNat, data + i ∈ callers) :
    ∃ n s' m', s.read data len m = some (n, s', m') ∧ n.toNat = min len.toNat q.length ∧
      bytesAt m' data n.toNat = q.take n.toNat ∧ s'.Holds callers m' (q.drop n.toNat) ∧
      ∀ a ∈ callers, ¬ (data ≤ a ∧ a < data + n.toNat) → m' a = m a := by
  have hn : (minU64 len s.bufferPos).toNat = min len.toNat q.length := by
    rw [toNat_minU64, h.length]
  have hfits : s.bufferPos.toNat < s.bufferSize.toNat := BitVec.lt_def.mp h.fits
  have hpos := h.length
  rw [read, if_neg (not_not.mpr h.unlocked)]
  by_cases hzero : minU64 len s.bufferPos = 0
  · simp only [if_pos hzero]
    have hn0 : min len.toNat q.length = 0 := by rw [← hn, hzero]; rfl
    exact ⟨0, s, m, rfl, hn0.symm, rfl, h, fun _ _ _ ↦ rfl⟩
  · simp only [if_neg hzero]
    generalize hlen : minU64 len s.bufferPos = n at hn hzero
    have hle : n.toNat ≤ s.bufferPos.toNat := by omega
    have hsub : (s.bufferPos - n).toNat = s.bufferPos.toNat - n.toNat := by
      rw [BitVec.toNat_sub_of_le (BitVec.le_def.mpr hle)]
    have hdisj : ∀ i < n.toNat, ∀ j < s.bufferSize.toNat, data + i ≠ s.buffer + j := by
      intro i hi j hj heq
      exact h.apart j hj (heq ▸ hdata i (by omega))
    have hfwd₁ : Forward data s.buffer n.toNat := by
      by_contra hcon
      simp only [Forward, not_or, not_le] at hcon
      exact hdisj 0 (by omega) (data - s.buffer) (by omega) (by omega)
    have hfwd₂ : Forward s.buffer (s.buffer + n.toNat) (s.bufferPos - n).toNat :=
      .inl (Nat.le_add_right _ _)
    have hget : ∀ i (hi : i < q.length), m (s.buffer + i) = q[i] := by
      intro i hi
      simp only [← h.contents, getElem_bytesAt]
    -- The first copy does not touch the block, the second nothing else.
    have hblock : ∀ j < s.bufferSize.toNat,
        memcpy data s.buffer n.toNat m (s.buffer + j) = m (s.buffer + j) := by
      intro j hj
      rw [memcpy_apply hfwd₁, if_neg]
      intro hin
      exact hdisj (s.buffer + j - data) (by omega) j hj (by omega)
    have hrest : ∀ a ∈ callers, memcpy s.buffer (s.buffer + n.toNat) (s.bufferPos - n).toNat
        (memcpy data s.buffer n.toNat m) a = memcpy data s.buffer n.toNat m a := by
      intro a ha
      rw [memcpy_apply hfwd₂, if_neg]
      intro hin
      refine h.apart (a - s.buffer) (by omega) ?_
      rwa [show s.buffer + (a - s.buffer) = a by omega]
    have hcontents : bytesAt (memcpy s.buffer (s.buffer + n.toNat) (s.bufferPos - n).toNat
        (memcpy data s.buffer n.toNat m)) s.buffer (s.bufferPos - n).toNat = q.drop n.toNat := by
      refine List.ext_getElem ?_ fun i hi hi' ↦ ?_
      · rw [length_bytesAt, List.length_drop, ← hpos, hsub]
      · rw [length_bytesAt, hsub] at hi
        rw [getElem_bytesAt, memcpy_apply hfwd₂, if_pos (by omega), Nat.add_sub_cancel_left,
          Nat.add_assoc, hblock _ (by omega), List.getElem_drop, hget _ (by omega)]
    have hfits' : s.bufferPos - n < s.bufferSize := by
      rw [BitVec.lt_def, hsub]
      omega
    refine ⟨n, _, _, rfl, hn, ?_, ⟨h.unlocked, hcontents, hfits', h.pow, h.apart⟩, ?_⟩
    · refine List.ext_getElem (by rw [length_bytesAt, List.length_take]; omega) fun i hi hi' ↦ ?_
      rw [length_bytesAt] at hi
      rw [getElem_bytesAt, hrest _ (hdata i (by omega)), memcpy_apply hfwd₁, if_pos (by omega),
        List.getElem_take, Nat.add_sub_cancel_left, hget i (by omega)]
    · intro a ha hnot
      rw [hrest a ha, memcpy_apply hfwd₁, if_neg hnot]

end DataStream

end Borrrdex
