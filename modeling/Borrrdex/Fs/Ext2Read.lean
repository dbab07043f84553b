import Borrrdex.Fs.Ext2

/-!
# What `read` reports and what it delivers

`read` is *honest* when a block it could not fetch makes it fail, and when the bytes it counts are
bytes of the disk.  It is not: no code that `read` returns is ever negative, since each layer loses
the sign (`if(int e = f() < 0) return e` returns 1), and a read over several blocks that ends at a
block boundary leaves out its last block, because `end_block_size` is then 0.

`honest_iff` says that these are the only two ways to fail: `read` is honest exactly when every
block it asks for can be fetched and the request is not one of those whose last block is dropped.
The first half is an induction over the loop of `read` (`copyBlocks_tail`), the second compares
what two different buffers look like afterwards.
-/

set_option autoImplicit false

namespace Borrrdex

open Splice

variable {σ : Type}

/-- The bytes of a request that the file has. -/
def Ext2File.available (node : Ext2File) (offset size : U64) : ℕ :=
  min size.toNat (node.size.toNat - offset.toNat)

namespace VolumeState

/-- What was asked of `read_block` between two states. -/
def asked (s t : VolumeState σ) : List Bool := t.log.drop s.log.length

theorem asked_trans {s t u : VolumeState σ} (hst : s.log <+: t.log) (htu : t.log <+: u.log) :
    asked s u = asked s t ++ asked t u := by
  obtain ⟨l, hl⟩ := hst
  obtain ⟨l', hl'⟩ := htu
  rw [asked, asked, asked, ← hl', ← hl]
  simp

/-- What was asked since the later of two states was asked since the earlier one. -/
theorem mem_asked {s t u : VolumeState σ} (hst : s.log <+: t.log) {e : Bool}
    (he : e ∈ asked t u) : e ∈ asked s u := by
  obtain ⟨k, hk⟩ := Nat.exists_eq_add_of_le hst.length_le
  rw [asked, hk, ← List.drop_drop] at he
  exact List.mem_of_mem_drop he

theorem asked_of_eq_append {s t : VolumeState σ} {l : List Bool} (h : t.log = s.log ++ l) :
    asked s t = l := by
  rw [asked, h, List.drop_left]

end VolumeState

namespace Ext2Volume

open VolumeState

variable (v : Ext2Volume σ)

/-! ## The log only grows -/

theorem prefix_readBlock (b : U32) (buffer : List Byte) (cache : Bool) (s : VolumeState σ) :
    s.log <+: (v.readBlock b buffer cache s).2.2.log := by
  rw [log_readBlock]
  exact List.prefix_append _ _

theorem prefix_indirect (b : U32) (cache : Bool) (i : U32) (buffer : List Byte)
    (s : VolumeState σ) : s.log <+: (v.indirect b cache i buffer s).2.2.log := by
  have h := v.prefix_readBlock b buffer cache s
  rw [indirect]
  dsimp only
  split <;> exact h

theorem prefix_findDataBlock (inode : Ext2File) (index : U32) (s : VolumeState σ) :
    s.log <+: (v.findDataBlock inode index s).2.log := by
  have step : ∀ {b c i l} {t : VolumeState σ} {w : Option U32} {l' : List Byte}
      {u : VolumeState σ}, v.indirect b c i l t = (w, l', u) → s.log <+: t.log →
      s.log <+: u.log := by
    intro b c i l t w l' u h hst
    have := v.prefix_indirect b c i l t
    rw [h] at this
    exact hst.trans this
  rw [findDataBlock]
  dsimp only
  split
  · exact List.prefix_rfl
  split
  · split
    · next h => exact step h List.prefix_rfl
    · next h => exact step h List.prefix_rfl
  split
  · split
    · next h => exact step h List.prefix_rfl
    · next h =>
      split
      · next h' => exact step h' (step h List.prefix_rfl)
      · next h' => exact step h' (step h List.prefix_rfl)
  split
  · exact List.prefix_rfl
  split
  · next h => exact step h List.prefix_rfl
  · next h =>
    split
    · next h' => exact step h' (step h List.prefix_rfl)
    · next h' =>
      split
      · next h'' => exact step h'' (step h' (step h List.prefix_rfl))
      · next h'' => exact step h'' (step h' (step h List.prefix_rfl))

theorem prefix_findDataBlocksBy {find : U32 → VolumeState σ → ℤ × VolumeState σ}
    (hfind : ∀ index s, s.log <+: (find index s).2.log) (indices : List U32) (s : VolumeState σ) :
    s.log <+: (findDataBlocksBy find indices s).2.2.log := by
  induction indices generalizing s with
  | nil => exact List.prefix_rfl
  | cons index indices ih =>
    have h := hfind index s
    rw [findDataBlocksBy]
    dsimp only
    split
    · exact h
    · exact h.trans (ih _)

theorem prefix_copyBlocks (startOffset endSize size : U32) (count : ℕ) (blocks : List (ℕ × U32))
    (pos : ℕ) (data buffer : List Byte) (s : VolumeState σ) :
    s.log <+:
      (v.copyBlocks startOffset endSize size count blocks pos data buffer s).2.2.log := by
  induction blocks generalizing pos data buffer s with
  | nil => exact List.prefix_rfl
  | cons block blocks ih =>
    have h := v.prefix_readBlock block.2 data true s
    rw [copyBlocks]
    dsimp only
    split
    · exact h
    split
    · exact h.trans (ih _ _ _ _)
    split
    · exact h.trans (ih _ _ _ _)
    · exact h.trans (ih _ _ _ _)

/-! ## No code is negative -/

/-- The one negative code of `find_data_block` needs an index that no file of 32-bit size has.
The bounds of the lookups wrap around in 32 bits, so this is a matter of each block size. -/
theorem not_einval {index : U32} (hindex : index.toNat * v.blockSize.toNat < 2 ^ 32)
    (hind : ¬ index < 12 + v.blockSize / 4)
    (hdouble : ¬ index < 12 + v.blockSize / 4 * (v.blockSize / 4)) :
    ¬ index > 12 + v.blockSize / 4 * (v.blockSize / 4) +
      v.blockSize / 4 * v.blockSize * v.blockSize := by
  have hk := v.logBlockSize_le
  rw [toNat_blockSize] at hindex
  simp only [blockSize] at hind hdouble ⊢
  generalize v.logBlockSize = k at *
  interval_cases k <;> simp at hind hdouble hindex ⊢ <;> bv_omega

theorem findDataBlock_nonneg (inode : Ext2File) {index : U32} (s : VolumeState σ)
    (hindex : index.toNat * v.blockSize.toNat < 2 ^ 32) :
    0 ≤ (v.findDataBlock inode index s).1 := by
  rw [findDataBlock]
  dsimp only
  split
  · exact Int.natCast_nonneg _
  split
  · split <;> omega
  next hind =>
  split
  · split
    · omega
    · split <;> omega
  next hdouble =>
  rw [if_neg (v.not_einval hindex hind hdouble)]
  split
  · omega
  · split
    · omega
    · split <;> omega

theorem findDataBlocks_eq_zero (inode : Ext2File) (indices : List U32) (s : VolumeState σ)
    (hindices : ∀ index ∈ indices, index.toNat * v.blockSize.toNat < 2 ^ 32) :
    (v.findDataBlocks inode indices s).1 = 0 := by
  induction indices generalizing s with
  | nil => rfl
  | cons index indices ih =>
    rw [List.forall_mem_cons] at hindices
    have h := v.findDataBlock_nonneg inode s hindices.1
    rw [findDataBlocks, findDataBlocksBy]
    dsimp only
    rw [if_neg (not_lt.mpr h)]
    exact ih _ hindices.2

/-! ## The loop -/

/-- The log does not depend on the caller's buffer. -/
theorem copyBlocks_buffer (startOffset endSize size : U32) (count : ℕ) (blocks : List (ℕ × U32))
    (pos : ℕ) (data buffer buffer' : List Byte) (s : VolumeState σ) :
    (v.copyBlocks startOffset endSize size count blocks pos data buffer s).2.2 =
      (v.copyBlocks startOffset endSize size count blocks pos data buffer' s).2.2 := by
  induction blocks generalizing pos data buffer buffer' s with
  | nil => rfl
  | cons block blocks ih =>
    rw [copyBlocks, copyBlocks]
    dsimp only
    split
    · rfl
    split
    · exact ih _ _ _ _ _
    split
    · exact ih _ _ _ _ _
    · exact ih _ _ _ _ _

/-- One round of the loop, when everything asked for from here on can be fetched: the block is
read whole, and the same holds of what is left. -/
theorem readBlock_of_asked (startOffset endSize size : U32) (count j : ℕ) (b : U32)
    (blocks : List (ℕ × U32)) (pos : ℕ) {data : List Byte} (buffer : List Byte)
    {s : VolumeState σ} (hdata : data.length = v.blockSize.toNat)
    (hall : ∀ e ∈ asked s (v.copyBlocks startOffset endSize size count ((j, b) :: blocks) pos data
      buffer s).2.2, e = true) :
    ∃ code t, 0 ≤ code ∧ v.readBlock b data true s = (code, v.blockBytes b, t) ∧
      ∀ e ∈ asked t (v.copyBlocks startOffset endSize size count ((j, b) :: blocks) pos data
        buffer s).2.2, e = true := by
  have hlog := v.log_readBlock b data true s
  have hprefix : (v.readBlock b data true s).2.2.log <+:
      (v.copyBlocks startOffset endSize size count
        ((j, b) :: blocks) pos data buffer s).2.2.log := by
    rw [copyBlocks]
    dsimp only
    split
    · exact List.prefix_rfl
    split
    · exact v.prefix_copyBlocks _ _ _ _ _ _ _ _ _
    split
    · exact v.prefix_copyBlocks _ _ _ _ _ _ _ _ _
    · exact v.prefix_copyBlocks _ _ _ _ _ _ _ _ _
  rw [asked_trans (v.prefix_readBlock b data true s) hprefix, asked_of_eq_append hlog,
    List.singleton_append, List.forall_mem_cons] at hall
  obtain ⟨hcode, hbytes⟩ := v.readBlock_fetchable hall.1 hdata
  exact ⟨_, _, hcode, by rw [← hbytes], hall.2⟩

/-- The bytes of the blocks of the loop. -/
def loopBytes (blocks : List (ℕ × U32)) : List Byte :=
  blocks.flatMap fun block ↦ v.blockBytes block.2

theorem loopBytes_cons (block : ℕ × U32) (blocks : List (ℕ × U32)) :
    v.loopBytes (block :: blocks) = v.blockBytes block.2 ++ v.loopBytes blocks := by
  rw [loopBytes, List.flatMap_cons, loopBytes]

theorem length_loopBytes (blocks : List (ℕ × U32)) :
    (v.loopBytes blocks).length = blocks.length * v.blockSize.toNat := by
  simp [loopBytes, List.length_flatMap]

/-- **The loop behind the first block**: whole blocks, and of the last one `end_block_size`
bytes. -/
theorem copyBlocks_tail (startOffset endSize size : U32) (count : ℕ) (block : ℕ × U32)
    (blocks : List (ℕ × U32)) (i pos : ℕ) (data buffer : List Byte) (s : VolumeState σ)
    (hidx : (block :: blocks).map Prod.fst = List.range' i (blocks.length + 1)) (hi : 0 < i)
    (hcount : i + blocks.length + 1 = count) (hdata : data.length = v.blockSize.toNat)
    (hroom : pos + (blocks.length * v.blockSize.toNat + endSize.toNat) ≤ buffer.length)
    (hall : ∀ e ∈ asked s (v.copyBlocks startOffset endSize size count (block :: blocks) pos data
      buffer s).2.2, e = true) :
    ∃ t, v.copyBlocks startOffset endSize size count (block :: blocks) pos data buffer s =
      (true, splice buffer pos ((v.loopBytes (block :: blocks)).take
        (blocks.length * v.blockSize.toNat + endSize.toNat)), t) := by
  induction blocks generalizing block i pos data buffer s with
  | nil =>
    obtain ⟨j, b⟩ := block
    obtain rfl : j = i := by simpa using hidx
    obtain ⟨code, t, hcode, hread, -⟩ :=
      v.readBlock_of_asked startOffset endSize size count j b [] pos buffer hdata hall
    simp only [List.length_nil] at hcount
    rw [copyBlocks]
    dsimp only
    rw [hread]
    dsimp only
    rw [if_neg (not_lt.mpr hcode), if_neg (by omega), if_pos (by omega), copyBlocks]
    exact ⟨t, by simp [loopBytes]⟩
  | cons next blocks ih =>
    obtain ⟨j, b⟩ := block
    rw [List.map_cons, List.range'_succ, List.cons.injEq] at hidx
    obtain ⟨rfl, hidx⟩ := hidx
    obtain ⟨code, t, hcode, hread, hrest⟩ :=
      v.readBlock_of_asked startOffset endSize size count j b (next :: blocks) pos buffer hdata hall
    simp only [List.length_cons] at hcount hroom ⊢
    have hstep : v.copyBlocks startOffset endSize size count ((j, b) :: next :: blocks) pos data
        buffer s = v.copyBlocks startOffset endSize size count (next :: blocks)
          (pos + v.blockSize.toNat) (v.blockBytes b) (splice buffer pos (v.blockBytes b)) t := by
      rw [copyBlocks]
      dsimp only
      rw [hread]
      dsimp only
      rw [if_neg (not_lt.mpr hcode), if_neg (by omega), if_neg (by omega),
        List.take_of_length_le (by simp)]
    rw [hstep] at hrest ⊢
    have hlen := v.length_blockBytes b
    rw [Nat.succ_mul] at hroom ⊢
    obtain ⟨t', ht'⟩ := ih next (j + 1) (pos + v.blockSize.toNat) (v.blockBytes b)
      (splice buffer pos (v.blockBytes b)) t hidx (by omega) (by omega) hlen
      (by rw [length_splice (by omega)]; omega) hrest
    refine ⟨t', ?_⟩
    rw [ht', ← hlen, splice_splice (by omega), v.loopBytes_cons (j, b),
      Nat.add_right_comm, Nat.add_comm _ (v.blockBytes b).length, List.take_length_add_append]

/-- How many bytes the loop over `m` blocks copies. -/
def copied (startOffset endSize size m : ℕ) : ℕ :=
  if m ≤ 1 then size else (m - 1) * v.blockSize.toNat - startOffset + endSize

/-- **The whole loop**, when every block can be fetched. -/
theorem copyBlocks_all (startOffset endSize size : U32) (blocks : List (ℕ × U32))
    (data buffer : List Byte) (s : VolumeState σ)
    (hidx : blocks.map Prod.fst = List.range' 0 blocks.length)
    (hstart : startOffset.toNat < v.blockSize.toNat)
    (hone : blocks.length = 1 → size.toNat ≤ v.blockSize.toNat - startOffset.toNat)
    (htwo : 2 ≤ blocks.length → v.blockSize.toNat - startOffset.toNat ≤ size.toNat)
    (hdata : data.length = v.blockSize.toNat)
    (hroom : v.copied startOffset.toNat endSize.toNat size.toNat blocks.length ≤ buffer.length)
    (hall : ∀ e ∈ asked s (v.copyBlocks startOffset endSize size blocks.length blocks 0 data
      buffer s).2.2, e = true) :
    ∃ t, v.copyBlocks startOffset endSize size blocks.length blocks 0 data buffer s =
      (true, splice buffer 0 (((v.loopBytes blocks).drop startOffset.toNat).take
        (v.copied startOffset.toNat endSize.toNat size.toNat blocks.length)), t) := by
  have hfirst : (if v.blockSize - startOffset > size then size
      else v.blockSize - startOffset).toNat =
      min size.toNat (v.blockSize.toNat - startOffset.toNat) := by
    have hsub : (v.blockSize - startOffset).toNat = v.blockSize.toNat - startOffset.toNat :=
      BitVec.toNat_sub_of_le (by bv_omega)
    split
    · next h => rw [gt_iff_lt, BitVec.lt_def, hsub] at h; omega
    · next h => rw [gt_iff_lt, BitVec.lt_def, hsub] at h; omega
  cases blocks with
  | nil => exact ⟨s, by simp [copyBlocks, loopBytes]⟩
  | cons block blocks =>
    obtain ⟨j, b⟩ := block
    rw [List.map_cons, List.length_cons, List.range'_succ, List.cons.injEq] at hidx
    obtain ⟨rfl, hidx⟩ := hidx
    obtain ⟨code, t, hcode, hread, hrest⟩ :=
      v.readBlock_of_asked startOffset endSize size _ 0 b blocks 0 buffer hdata hall
    have hbytes := v.length_blockBytes b
    have hstep : v.copyBlocks startOffset endSize size ((0, b) :: blocks).length
        ((0, b) :: blocks) 0 data buffer s =
        v.copyBlocks startOffset endSize size ((0, b) :: blocks).length blocks
          (min size.toNat (v.blockSize.toNat - startOffset.toNat)) (v.blockBytes b)
          (splice buffer 0 (((v.blockBytes b).drop startOffset.toNat).take
            (min size.toNat (v.blockSize.toNat - startOffset.toNat)))) t := by
      rw [copyBlocks]
      dsimp only
      rw [hread]
      dsimp only
      rw [if_neg (not_lt.mpr hcode), if_pos rfl, hfirst, Nat.zero_add]
    rw [hstep] at hrest ⊢
    cases blocks with
    | nil =>
      refine ⟨t, ?_⟩
      rw [copyBlocks, Nat.min_eq_left (hone rfl)]
      simp [loopBytes, copied]
    | cons next blocks =>
      have hdrop : ((v.blockBytes b).drop startOffset.toNat).length =
          v.blockSize.toNat - startOffset.toNat := by
        rw [List.length_drop, hbytes]
      have hcopied : v.copied startOffset.toNat endSize.toNat size.toNat
          ((0, b) :: next :: blocks).length = v.blockSize.toNat - startOffset.toNat +
            (blocks.length * v.blockSize.toNat + endSize.toNat) := by
        simp only [copied, List.length_cons, Nat.add_sub_cancel, Nat.succ_mul]
        rw [if_neg (by omega)]
        omega
      rw [hcopied] at hroom ⊢
      rw [Nat.min_eq_right (htwo (by simp)), List.take_of_length_le hdrop.le] at hrest ⊢
      obtain ⟨t', ht'⟩ := v.copyBlocks_tail startOffset endSize size _ next blocks 1
        (v.blockSize.toNat - startOffset.toNat) (v.blockBytes b) _ t hidx (by decide)
        (by simp; omega) hbytes (by rw [length_splice (by omega)]; omega) hrest
      refine ⟨t', ?_⟩
      rw [ht', ← hdrop, ← Nat.zero_add (List.length _), splice_splice (Nat.zero_le _),
        v.loopBytes_cons (0, b), List.drop_append_of_le_length (hstart.le.trans hbytes.ge),
          Nat.zero_add,
        List.take_length_add_append]

/-! ## The whole call -/

/-- The number of blocks a request touches. -/
def spanned (node : Ext2File) (offset size : U64) : ℕ :=
  (offset.toNat + node.available offset size + v.blockSize.toNat - 1) / v.blockSize.toNat -
    offset.toNat / v.blockSize.toNat

/-- The request goes over more than one block and ends where a block ends. -/
def DropsLastBlock (node : Ext2File) (offset size : U64) : Prop :=
  2 ≤ v.spanned node offset size ∧
    (offset.toNat + node.available offset size) % v.blockSize.toNat = 0

instance (node : Ext2File) (offset size : U64) : Decidable (v.DropsLastBlock node offset size) :=
  inferInstanceAs (Decidable (_ ∧ _))

/-- What the request is made of, in whole blocks. -/
theorem exists_span (node : Ext2File) (offset size : U64) :
    ∃ d, node.available offset size + offset.toNat % v.blockSize.toNat =
        d * v.blockSize.toNat +
          (offset.toNat + node.available offset size) % v.blockSize.toNat ∧
      v.spanned node offset size =
        if (offset.toNat + node.available offset size) % v.blockSize.toNat = 0 then d
        else d + 1 := by
  have hpos := v.blockSize_pos
  rw [spanned]
  generalize v.blockSize.toNat = bs at *
  generalize node.available offset size = n
  generalize offset.toNat = o
  have ho := Nat.div_add_mod o bs
  have hon := Nat.div_add_mod (o + n) bs
  have hle : o / bs ≤ (o + n) / bs := Nat.div_le_div_right (by omega)
  obtain ⟨d, hd⟩ := Nat.exists_eq_add_of_le hle
  rw [hd, Nat.mul_add] at hon
  refine ⟨d, by rw [Nat.mul_comm d]; omega, ?_⟩
  have hlt := Nat.mod_lt (o + n) hpos
  have hceil : o + n + bs - 1 = ((o + n) % bs + bs - 1) + bs * (o / bs + d) := by
    rw [Nat.mul_add]
    omega
  rw [hceil, Nat.add_mul_div_left _ _ hpos]
  split
  · next h =>
    rw [h, Nat.div_eq_of_lt (by omega)]
    omega
  · next h =>
    rw [show ((o + n) % bs + bs - 1) / bs = 1 from
      Nat.div_eq_of_lt_le (by omega) (by omega)]
    omega

/-- How many of the bytes the loop copies: all, or all but the last block. -/
theorem copied_eq (node : Ext2File) (offset size : U64) :
    v.copied (offset.toNat % v.blockSize.toNat)
        ((offset.toNat + node.available offset size) % v.blockSize.toNat)
        (node.available offset size) (v.spanned node offset size) =
      node.available offset size -
        if v.DropsLastBlock node offset size then v.blockSize.toNat else 0 := by
  obtain ⟨d, hd, hm⟩ := v.exists_span node offset size
  have hlt := Nat.mod_lt offset.toNat v.blockSize_pos
  rw [copied]
  split
  · next h => rw [if_neg (by rw [DropsLastBlock]; omega), Nat.sub_zero]
  · next h =>
    have htwo : 2 ≤ v.spanned node offset size := by omega
    split at hm
    · next hend =>
      obtain ⟨d, rfl⟩ := Nat.exists_eq_add_of_le (hm ▸ htwo)
      rw [if_pos ⟨htwo, hend⟩, hm, hend]
      rw [Nat.add_mul] at hd
      rw [show 2 + d - 1 = 1 + d by omega, Nat.add_mul]
      omega
    · next hend =>
      obtain ⟨d, rfl⟩ : ∃ d', d = 1 + d' := Nat.exists_eq_add_of_le (by omega)
      rw [if_neg fun h ↦ hend h.2, hm]
      rw [Nat.add_mul] at hd
      rw [Nat.add_sub_cancel, Nat.add_mul]
      omega

/-- The blocks of a request hold all of it. -/
theorem available_le (node : Ext2File) (offset size : U64) :
    node.available offset size + offset.toNat % v.blockSize.toNat ≤
      v.spanned node offset size * v.blockSize.toNat := by
  obtain ⟨d, hd, hm⟩ := v.exists_span node offset size
  have hlt := Nat.mod_lt (offset.toNat + node.available offset size) v.blockSize_pos
  split at hm
  · rw [hm]
    omega
  · rw [hm, Nat.succ_mul]
    omega

theorem blockSize_le_of_two_le (node : Ext2File) (offset size : U64)
    (h : 2 ≤ v.spanned node offset size) :
    v.blockSize.toNat ≤ node.available offset size + offset.toNat % v.blockSize.toNat := by
  obtain ⟨d, hd, hm⟩ := v.exists_span node offset size
  have hpos : 0 < d := by
    split at hm <;> omega
  have := Nat.le_mul_of_pos_left v.blockSize.toNat hpos
  omega

/-! The 64-bit computations of `read`, whose results it keeps in 32 bits. -/

theorem toNat_blockSize64 : (v.blockSize.setWidth 64).toNat = v.blockSize.toNat := by
  rw [BitVec.toNat_setWidth, Nat.mod_eq_of_lt]
  exact v.blockSize.isLt.trans (by decide)

theorem toNat_blockNum {x : U64} (hx : x.toNat < 2 ^ 42) :
    ((x / v.blockSize.setWidth 64).setWidth 32 : U32).toNat = x.toNat / v.blockSize.toNat := by
  have hbs : 2 ^ 10 ≤ v.blockSize.toNat := by
    rw [toNat_blockSize]
    exact Nat.pow_le_pow_right (by decide) (by omega)
  have hle : x.toNat / v.blockSize.toNat ≤ x.toNat / 2 ^ 10 := Nat.div_le_div_left hbs (by decide)
  rw [BitVec.toNat_setWidth, BitVec.toNat_udiv, toNat_blockSize64, Nat.mod_eq_of_lt]
  exact hle.trans_lt (by omega)

theorem toNat_blockOffset (x : U64) :
    ((x % v.blockSize.setWidth 64).setWidth 32 : U32).toNat = x.toNat % v.blockSize.toNat := by
  rw [BitVec.toNat_setWidth, BitVec.toNat_umod, toNat_blockSize64, Nat.mod_eq_of_lt]
  exact (Nat.mod_lt _ v.blockSize_pos).trans v.blockSize.isLt

/-- The indices of the blocks that a request touches. -/
def indices (node : Ext2File) (offset size : U64) : List U32 :=
  (List.range (v.spanned node offset size)).map fun i ↦
    BitVec.ofNat 32 (offset.toNat / v.blockSize.toNat + i)

/-- They are blocks of the file. -/
theorem toNat_index_lt {node : Ext2File} {offset size : U64}
    (hoffset : offset.toNat < node.size.toNat) {i : ℕ} (hi : i < v.spanned node offset size) :
    (BitVec.ofNat 32 (offset.toNat / v.blockSize.toNat + i)).toNat =
        offset.toNat / v.blockSize.toNat + i ∧
      (offset.toNat / v.blockSize.toNat + i) * v.blockSize.toNat < node.size.toNat := by
  have hlt := node.size.isLt
  have hpos := v.blockSize_pos
  have hle : node.available offset size ≤ node.size.toNat - offset.toNat := Nat.min_le_right _ _
  have hstop : (offset.toNat / v.blockSize.toNat + i + 1) ≤
      (offset.toNat + node.available offset size + v.blockSize.toNat - 1) / v.blockSize.toNat := by
    rw [spanned] at hi
    omega
  have hmul := (Nat.le_div_iff_mul_le hpos).mp hstop
  rw [Nat.succ_mul] at hmul
  have hbound : (offset.toNat / v.blockSize.toNat + i) * v.blockSize.toNat < node.size.toNat := by
    omega
  refine ⟨?_, hbound⟩
  have hself := Nat.le_mul_of_pos_right (offset.toNat / v.blockSize.toNat + i) hpos
  rw [BitVec.toNat_ofNat, Nat.mod_eq_of_lt (by omega)]

/-- The lookups of a read that ends inside a file of 32-bit size. -/
theorem findDataBlocks_indices (node : Ext2File) (offset size : U64) (s : VolumeState σ)
    (hoffset : offset.toNat < node.size.toNat) :
    (v.findDataBlocks node (v.indices node offset size) s).1 = 0 := by
  refine v.findDataBlocks_eq_zero node _ s fun index hindex ↦ ?_
  obtain ⟨i, hi, rfl⟩ := List.mem_map.mp hindex
  obtain ⟨hidx, hlt⟩ := v.toNat_index_lt hoffset (List.mem_range.mp hi)
  rw [hidx]
  exact hlt.trans node.size.isLt

/-- `size` after it is cut to what the file has. -/
theorem toNat_cut {node : Ext2File} {offset size : U64}
    (hoffset : offset.toNat < node.size.toNat) (hsize : offset.toNat + size.toNat < 2 ^ 64) :
    (if offset + size > node.size.setWidth 64 then node.size.setWidth 64 - offset
      else size).toNat = node.available offset size := by
  have hlt := node.size.isLt
  have hnode : (node.size.setWidth 64).toNat = node.size.toNat := by
    rw [BitVec.toNat_setWidth, Nat.mod_eq_of_lt (by omega)]
  have hsum : (offset + size).toNat = offset.toNat + size.toNat :=
    BitVec.toNat_add_of_lt (by omega)
  rw [Ext2File.available]
  split
  · next h =>
    rw [gt_iff_lt, BitVec.lt_def, hsum, hnode] at h
    rw [BitVec.toNat_sub_of_le (by rw [BitVec.le_def]; omega), hnode]
    omega
  · next h =>
    rw [gt_iff_lt, BitVec.lt_def, hsum, hnode] at h
    omega

/-- The blocks that the loop goes over, numbered. -/
def numbered (blockList : List U32) (m : ℕ) : List (ℕ × U32) :=
  (List.range m).map fun i ↦ (i, blockList.getD i (v.stray i))

theorem length_numbered (blockList : List U32) (m : ℕ) : (v.numbered blockList m).length = m := by
  rw [numbered, List.length_map, List.length_range]

theorem fst_numbered (blockList : List U32) (m : ℕ) :
    (v.numbered blockList m).map Prod.fst = List.range' 0 m := by
  rw [numbered, List.map_map, ← List.range_eq_range']
  exact List.map_id _

/-- The indices that `read` looks up. -/
def lookedUp (node : Ext2File) (offset size : U64) : List U32 :=
  let nodeSize := node.size.setWidth 64
  let blockSize := v.blockSize.setWidth 64
  let size := if offset + size > nodeSize then nodeSize - offset else size
  let startBlockNum : U32 := (offset / blockSize).setWidth 32
  let endBlockNum : U32 := ((offset + size + blockSize - 1) / blockSize).setWidth 32
  (List.range (endBlockNum.toNat - startBlockNum.toNat)).map fun i ↦
    startBlockNum + BitVec.ofNat 32 i

/-- **What `read` computes** for a request inside the file: the size it is cut to, and the numbers
of the first block and of the blocks. -/
theorem request_nums {node : Ext2File} {offset size : U64}
    (hoffset : offset.toNat < node.size.toNat) (hsize : offset.toNat + size.toNat < 2 ^ 64) :
    ∃ (n : U64) (start stop : U32),
      (if offset + size > node.size.setWidth 64 then node.size.setWidth 64 - offset else size) = n ∧
      ((offset / v.blockSize.setWidth 64).setWidth 32 : U32) = start ∧
      (((offset + n + v.blockSize.setWidth 64 - 1) / v.blockSize.setWidth 64).setWidth 32 : U32) =
        stop ∧
      n.toNat = node.available offset size ∧
      (offset + n).toNat = offset.toNat + node.available offset size ∧
      start.toNat = offset.toNat / v.blockSize.toNat ∧
      stop.toNat - start.toNat = v.spanned node offset size ∧
      (stop - start).toNat = v.spanned node offset size := by
  have hlt := node.size.isLt
  have hpos := v.blockSize_pos
  have hbs := v.blockSize.isLt
  obtain ⟨n, hn, hdef⟩ : ∃ n : U64, n.toNat = node.available offset size ∧
      (if offset + size > node.size.setWidth 64 then node.size.setWidth 64 - offset else size) =
        n := ⟨_, toNat_cut hoffset hsize, rfl⟩
  have hnle : offset.toNat + n.toNat ≤ node.size.toNat := by
    rw [hn, Ext2File.available]
    omega
  have hsum : (offset + n).toNat = offset.toNat + n.toNat := BitVec.toNat_add_of_lt (by omega)
  have hround : (offset + n + v.blockSize.setWidth 64 - 1).toNat =
      offset.toNat + n.toNat + v.blockSize.toNat - 1 := by
    have h64 := v.toNat_blockSize64
    bv_omega
  have hstart := v.toNat_blockNum (x := offset) (by omega)
  have hstop := v.toNat_blockNum (x := offset + n + v.blockSize.setWidth 64 - 1) (by omega)
  rw [hround] at hstop
  refine ⟨n, _, _, hdef, rfl, rfl, hn, hn ▸ hsum, hstart, ?_, ?_⟩
  · rw [hstart, hstop, spanned, hn]
  · rw [BitVec.toNat_sub_of_le, hstart, hstop, spanned, hn]
    rw [BitVec.le_def, hstart, hstop]
    exact Nat.div_le_div_right (by omega)

theorem lookedUp_eq {node : Ext2File} {offset size : U64}
    (hoffset : offset.toNat < node.size.toNat) (hsize : offset.toNat + size.toNat < 2 ^ 64) :
    v.lookedUp node offset size = v.indices node offset size := by
  obtain ⟨n, start, stop, hn, hstart, hstop, -, -, hnum, hspan, -⟩ := v.request_nums hoffset hsize
  rw [lookedUp, hn, hstart, hstop, hspan]
  refine List.map_congr_left fun i _ ↦ ?_
  rw [BitVec.ofNat_add, ← hnum, BitVec.ofNat_toNat, BitVec.setWidth_eq]

theorem state_ite (n : ℤ) (r : Bool × List Byte × VolumeState σ) :
    (if r.1 then (n, r.2.1, r.2.2) else (1, r.2.1, r.2.2)).2.2 = r.2.2 := by
  split <;> rfl

/-- Looking up comes first. -/
theorem prefix_readBy (find : U32 → VolumeState σ → ℤ × VolumeState σ) {node : Ext2File}
    {offset : U64} (size : U64) (buffer : List Byte) (s : VolumeState σ)
    (hoffset : offset.toNat < node.size.toNat) :
    (findDataBlocksBy find (v.lookedUp node offset size) s).2.2.log <+:
      (v.readBy find node offset size buffer s).2.2.log := by
  have hnlt : ¬ offset ≥ node.size.setWidth 64 := by bv_omega
  rw [readBy, lookedUp]
  dsimp only
  rw [if_neg hnlt]
  generalize (if offset + size > node.size.setWidth 64 then node.size.setWidth 64 - offset
    else size) = size'
  split
  · exact List.prefix_rfl
  · rw [state_ite]
    refine List.IsPrefix.trans ?_ (v.prefix_copyBlocks _ _ _ _ _ _ _ _ _)
    exact List.prefix_rfl

/-- **`read` of a request inside the file**: the blocks are looked up, and the loop decides between
the count and 1. -/
theorem readBy_eq (find : U32 → VolumeState σ → ℤ × VolumeState σ) (node : Ext2File)
    (offset size : U64) (s : VolumeState σ) (hoffset : offset.toNat < node.size.toNat)
    (hsize : offset.toNat + size.toNat < 2 ^ 64) {blockList : List U32} {t : VolumeState σ}
    (hfind : findDataBlocksBy find (v.indices node offset size) s = (0, blockList, t)) :
    ∃ startOffset endSize size' : U32,
      startOffset.toNat = offset.toNat % v.blockSize.toNat ∧
      endSize.toNat = (offset.toNat + node.available offset size) % v.blockSize.toNat ∧
      size'.toNat = node.available offset size ∧
      ∀ buffer, v.readBy find node offset size buffer s =
        let r := v.copyBlocks startOffset endSize size' (v.spanned node offset size)
          (v.numbered blockList (v.spanned node offset size)) 0 (v.mallocBlock t.mallocs) buffer
          { t with mallocs := t.mallocs + 1 }
        if r.1 then ((node.available offset size : ℤ), r.2.1, r.2.2) else (1, r.2.1, r.2.2) := by
  obtain ⟨n, start, stop, hdef, hstart, hstop, hn, hsum, -, hspan, hcount⟩ :=
    v.request_nums hoffset hsize
  have hlt := node.size.isLt
  have hle : node.available offset size ≤ node.size.toNat - offset.toNat := Nat.min_le_right _ _
  have hindices := v.lookedUp_eq hoffset hsize
  rw [lookedUp, hdef, hstart, hstop, hspan] at hindices
  refine ⟨(offset % v.blockSize.setWidth 64).setWidth 32,
    ((offset + n) % v.blockSize.setWidth 64).setWidth 32, n.setWidth 32,
    v.toNat_blockOffset offset, ?_, ?_, fun buffer ↦ ?_⟩
  · rw [v.toNat_blockOffset, hsum]
  · rw [BitVec.toNat_setWidth, Nat.mod_eq_of_lt (by omega), hn]
  · have hnlt : ¬ offset ≥ node.size.setWidth 64 := by bv_omega
    rw [readBy]
    dsimp only
    rw [if_neg hnlt, hdef, hstart, hstop, hspan, hindices, hfind, hcount]
    have hint : n.toInt = (node.available offset size : ℤ) := by
      rw [BitVec.toInt_eq_toNat_of_lt (by omega), hn]
    simp [hint, numbered]

/-! ## Honesty -/

/-- What a call asks of `read_block`, whatever the caller's buffer is. -/
def requests (node : Ext2File) (offset size : U64) (s : VolumeState σ) : List Bool :=
  asked s (v.read node offset size [] s).2.2

/-- A call is honest when it fails if a block it needs cannot be fetched, and when the bytes it
counts are bytes of the disk, whatever the buffer held before. -/
def Honest (node : Ext2File) (offset size : U64) (s : VolumeState σ) : Prop :=
  (∀ buffer, size.toNat ≤ buffer.length →
    false ∈ asked s (v.read node offset size buffer s).2.2 →
    (v.read node offset size buffer s).1 < 0) ∧
  ∃ blocks : List U32, ∀ buffer, size.toNat ≤ buffer.length →
    ∀ n : ℕ, (v.read node offset size buffer s).1 = n →
      (v.read node offset size buffer s).2.1.take n =
        ((blocks.flatMap v.blockBytes).drop (offset.toNat % v.blockSize.toNat)).take n

theorem readBy_of_le (find : U32 → VolumeState σ → ℤ × VolumeState σ) {node : Ext2File}
    {offset : U64} (size : U64) (buffer : List Byte) (s : VolumeState σ)
    (h : node.size.toNat ≤ offset.toNat) :
    v.readBy find node offset size buffer s = (0, buffer, s) := by
  have hge : offset ≥ node.size.setWidth 64 := by bv_omega
  rw [readBy]
  dsimp only
  rw [if_pos hge]

theorem read_of_le {node : Ext2File} {offset : U64} (size : U64) (buffer : List Byte)
    (s : VolumeState σ) (h : node.size.toNat ≤ offset.toNat) :
    v.read node offset size buffer s = (0, buffer, s) := by
  rw [read, v.readBy_of_le _ size buffer s h]

/-- The lookups of `read` never fail. -/
theorem exists_found (node : Ext2File) (offset size : U64) (s : VolumeState σ)
    (hoffset : offset.toNat < node.size.toNat) : ∃ blockList t,
      findDataBlocksBy (v.findDataBlock node) (v.indices node offset size) s =
        (0, blockList, t) := by
  have hfound := v.findDataBlocks_indices node offset size s hoffset
  exact ⟨_, _, Prod.ext hfound rfl⟩

/-- **The codes of `read` are never negative.** -/
theorem read_nonneg (node : Ext2File) (offset size : U64) (buffer : List Byte)
    (s : VolumeState σ) (hsize : size.toNat < 2 ^ 63) :
    0 ≤ (v.read node offset size buffer s).1 := by
  rcases Nat.lt_or_ge offset.toNat node.size.toNat with hoffset | hoffset
  · have hlt := node.size.isLt
    obtain ⟨blockList, t, hfind⟩ := v.exists_found node offset size s hoffset
    obtain ⟨_, _, _, -, -, -, hread⟩ := v.readBy_eq _ node offset size s hoffset (by omega) hfind
    rw [read, hread]
    dsimp only
    split
    · exact Int.natCast_nonneg _
    · exact Int.one_nonneg
  · rw [v.read_of_le size buffer s hoffset]

/-- What is asked of `read_block` does not depend on the caller's buffer. -/
theorem state_readBy (find : U32 → VolumeState σ → ℤ × VolumeState σ) (node : Ext2File)
    (offset size : U64) (buffer buffer' : List Byte) (s : VolumeState σ) :
    (v.readBy find node offset size buffer s).2.2 =
      (v.readBy find node offset size buffer' s).2.2 := by
  rw [readBy, readBy]
  dsimp only
  split
  · rfl
  generalize (if offset + size > node.size.setWidth 64 then node.size.setWidth 64 - offset
    else size) = size'
  split
  · rfl
  · rw [state_ite, state_ite]
    exact v.copyBlocks_buffer _ _ _ _ _ _ _ _ _ _

theorem asked_read (node : Ext2File) (offset size : U64) (buffer : List Byte)
    (s : VolumeState σ) :
    asked s (v.read node offset size buffer s).2.2 = v.requests node offset size s := by
  rw [requests, read, read, v.state_readBy _ node offset size buffer []]

/-- **A request whose blocks are found**: if those can all be fetched, the count is returned, and
what is copied is what `copied_eq` says. -/
theorem readBy_of_found (find : U32 → VolumeState σ → ℤ × VolumeState σ) (node : Ext2File)
    (offset size : U64) (s : VolumeState σ) (hoffset : offset.toNat < node.size.toNat)
    (hsize : offset.toNat + size.toNat < 2 ^ 64) {blockList : List U32} {t : VolumeState σ}
    (hfind : findDataBlocksBy find (v.indices node offset size) s = (0, blockList, t))
    (hall : ∀ e ∈ asked t (v.readBy find node offset size [] s).2.2, e = true)
    (buffer : List Byte) (hbuffer : size.toNat ≤ buffer.length) :
    ∃ u, v.readBy find node offset size buffer s =
      ((node.available offset size : ℤ), splice buffer 0
        (((v.loopBytes (v.numbered blockList (v.spanned node offset size))).drop
          (offset.toNat % v.blockSize.toNat)).take (node.available offset size -
            if v.DropsLastBlock node offset size then v.blockSize.toNat else 0)), u) := by
  obtain ⟨startOffset, endSize, size', hstart, hend, hsize', hread⟩ :=
    v.readBy_eq find node offset size s hoffset hsize hfind
  have hcall := hall
  rw [v.state_readBy find node offset size [] buffer, hread, state_ite] at hcall
  have hlength := v.length_numbered blockList (v.spanned node offset size)
  have hcopied := v.copied_eq node offset size
  have hone := v.available_le node offset size
  have htwo := v.blockSize_le_of_two_le node offset size
  have hidx := v.fst_numbered blockList (v.spanned node offset size)
  have hle : node.available offset size ≤ size.toNat := Nat.min_le_left _ _
  generalize v.numbered blockList (v.spanned node offset size) =
    blocks at hread hcall hlength hidx ⊢
  rw [← hstart, ← hend, ← hsize', ← hlength] at hcopied
  rw [← hlength] at hread hcall hidx hone htwo
  obtain ⟨u, hu⟩ := v.copyBlocks_all startOffset endSize size' blocks (v.mallocBlock t.mallocs)
    buffer { t with mallocs := t.mallocs + 1 } hidx
    (hstart ▸ Nat.mod_lt _ v.blockSize_pos)
    (fun h ↦ by rw [h, Nat.one_mul] at hone; omega) (fun h ↦ by have := htwo h; omega)
    (v.length_mallocBlock _) (by omega) hcall
  refine ⟨u, ?_⟩
  rw [hread, hu, hcopied, hstart, hsize']
  rfl

/-- A request whose blocks can all be fetched. -/
theorem read_of_requests (node : Ext2File) (offset size : U64) (s : VolumeState σ)
    (hoffset : offset.toNat < node.size.toNat) (hsize : size.toNat < 2 ^ 63)
    (hall : ∀ e ∈ v.requests node offset size s, e = true) :
    ∃ blocks : List U32, node.available offset size ≤
        ((blocks.flatMap v.blockBytes).drop (offset.toNat % v.blockSize.toNat)).length ∧
      ∀ buffer, size.toNat ≤ buffer.length → ∃ t, v.read node offset size buffer s =
        ((node.available offset size : ℤ), splice buffer 0
          (((blocks.flatMap v.blockBytes).drop (offset.toNat % v.blockSize.toNat)).take
            (node.available offset size -
              if v.DropsLastBlock node offset size then v.blockSize.toNat else 0)), t) := by
  have hlt := node.size.isLt
  obtain ⟨blockList, t, hfind⟩ := v.exists_found node offset size s hoffset
  have hbytes : ((v.numbered blockList (v.spanned node offset size)).map Prod.snd).flatMap
      v.blockBytes = v.loopBytes (v.numbered blockList (v.spanned node offset size)) := by
    rw [List.flatMap_map, loopBytes]
  refine ⟨(v.numbered blockList (v.spanned node offset size)).map Prod.snd, ?_,
    fun buffer hbuffer ↦ ?_⟩
  · have hle := v.available_le node offset size
    rw [hbytes, List.length_drop, length_loopBytes, length_numbered]
    omega
  · rw [read, hbytes]
    refine v.readBy_of_found _ node offset size s hoffset (by omega) hfind ?_ buffer hbuffer
    intro e he
    refine hall e ?_
    rw [requests, read]
    have hprefix := prefix_findDataBlocksBy (v.prefix_findDataBlock node)
      (v.indices node offset size) s
    rw [hfind] at hprefix
    exact mem_asked hprefix he

/-- When every block is there and none is dropped, the bytes counted are the disk's. -/
theorem honest_of_requests (node : Ext2File) (offset size : U64) (s : VolumeState σ)
    (hsize : size.toNat < 2 ^ 63) (hall : ∀ e ∈ v.requests node offset size s, e = true)
    (hdrop : ¬ v.DropsLastBlock node offset size) : v.Honest node offset size s := by
  refine ⟨fun buffer _ hfalse ↦ ?_, ?_⟩
  · rw [v.asked_read node offset size buffer s] at hfalse
    exact absurd (hall _ hfalse) (by decide)
  rcases Nat.lt_or_ge offset.toNat node.size.toNat with hoffset | hoffset
  · obtain ⟨blocks, hlen, hread⟩ := v.read_of_requests node offset size s hoffset hsize hall
    refine ⟨blocks, fun buffer hbuffer n hn ↦ ?_⟩
    obtain ⟨t, ht⟩ := hread buffer hbuffer
    rw [ht] at hn ⊢
    obtain rfl : node.available offset size = n := Int.ofNat.inj hn
    rw [if_neg hdrop, Nat.sub_zero]
    have htake := take_splice_zero buffer (List.take (node.available offset size)
      ((blocks.flatMap v.blockBytes).drop (offset.toNat % v.blockSize.toNat)))
    rw [List.length_take_of_le hlen] at htake
    exact htake
  · refine ⟨[], fun buffer _ n hn ↦ ?_⟩
    rw [v.read_of_le size buffer s hoffset] at hn ⊢
    obtain rfl : 0 = n := Int.ofNat.inj hn
    rfl

/-- The dropped block shows: what the buffer held before is still there, and is counted. -/
theorem not_honest_of_drops (node : Ext2File) (offset size : U64) (s : VolumeState σ)
    (hsize : size.toNat < 2 ^ 63) (hall : ∀ e ∈ v.requests node offset size s, e = true)
    (hdrop : v.DropsLastBlock node offset size) : ¬ v.Honest node offset size s := by
  rintro ⟨-, blocks, hbytes⟩
  have hlast := v.blockSize_le_of_two_le node offset size hdrop.1
  have hmod := Nat.mod_lt offset.toNat v.blockSize_pos
  have hle : node.available offset size ≤ size.toNat := Nat.min_le_left _ _
  have hoffset : offset.toNat < node.size.toNat := by
    have : node.available offset size ≤ node.size.toNat - offset.toNat := Nat.min_le_right _ _
    omega
  obtain ⟨blocks', hlen, hread⟩ := v.read_of_requests node offset size s hoffset hsize hall
  -- the last byte counted is the buffer's own
  have hown : ∀ b : Byte, (((blocks.flatMap v.blockBytes).drop
      (offset.toNat % v.blockSize.toNat)).take
        (node.available offset size))[node.available offset size - 1]? = some b := by
    intro b
    have hbuffer : size.toNat ≤ (List.replicate size.toNat b).length := by simp
    obtain ⟨t, ht⟩ := hread _ hbuffer
    rw [← hbytes _ hbuffer _ (by rw [ht]), ht]
    dsimp only
    rw [if_pos hdrop, List.getElem?_take_of_lt (by omega),
      getElem?_splice_of_le (by simp; omega) (by simp; omega), List.getElem?_replicate,
      if_pos (by omega)]
  exact absurd ((hown 0).symm.trans (hown 1)) (by decide)

/-- **When `read` is honest.** -/
theorem honest_iff (node : Ext2File) (offset size : U64) (s : VolumeState σ)
    (hsize : size.toNat < 2 ^ 63) :
    v.Honest node offset size s ↔
      (∀ e ∈ v.requests node offset size s, e = true) ∧ ¬ v.DropsLastBlock node offset size := by
  refine ⟨fun h ↦ ?_, fun h ↦ v.honest_of_requests node offset size s hsize h.1 h.2⟩
  have hall : ∀ e ∈ v.requests node offset size s, e = true := by
    intro e he
    by_contra hfalse
    rw [Bool.not_eq_true] at hfalse
    have hneg := h.1 (List.replicate size.toNat 0) (by simp)
    rw [asked_read v node offset size _ s] at hneg
    exact absurd (hneg (hfalse ▸ he)) (not_lt.mpr (v.read_nonneg node offset size _ s hsize))
  exact ⟨hall, fun hdrop ↦ v.not_honest_of_drops node offset size s hsize hall hdrop h⟩

end Ext2Volume

/-! ## On an AHCI port -/

open Ahci

/-- What an AHCI port serves. -/
def Ahci.PortDisk.toMedia (d : PortDisk) (writeDiskBlock : Transfer PortState) :
    Media (d.toDisk writeDiskBlock) where
  contents := d.contents
  served _ count s := d.served count s
  length_contents _ _ := d.length_flatten_sectors _ _
  read_served lba count buffer s hserved hcount hlen := by
    refine ⟨count.toInt, _, ?_, d.readDiskBlock_served hserved hlen⟩
    rw [BitVec.toInt_eq_toNat_of_lt (by omega)]
    exact Int.natCast_nonneg _

/-- A volume on a partition of an AHCI disk. -/
def ahciVolume (d : PortDisk) (writeDiskBlock : Transfer PortState) (partition : Partition)
    (blockCount : U32) (logBlockSize : ℕ) (h : logBlockSize ≤ 21) (garbage : ℕ → ℕ → Byte)
    (stray : ℕ → U32) : Ext2Volume PortState where
  disk := d.toDisk writeDiskBlock
  media := d.toMedia writeDiskBlock
  partition := partition
  errno := d.errno
  blockCount := blockCount
  logBlockSize := logBlockSize
  garbage := garbage
  stray := stray
  logBlockSize_le := h
  sector_eq := rfl

/-- **`read` on an AHCI disk** tells the truth exactly when every block it asks for can be fetched
— each is on the volume, passes the partition's check, finds a slot and a buffer and has no command
fail, or is in the cache as it is on the disk — and the request does not lose its last block. -/
theorem read_honest_iff (d : PortDisk) (writeDiskBlock : Transfer PortState)
    (partition : Partition) (blockCount : U32) (logBlockSize : ℕ) (h : logBlockSize ≤ 21)
    (garbage : ℕ → ℕ → Byte) (stray : ℕ → U32) (node : Ext2File) (offset size : U64)
    (hsize : size.toNat < 2 ^ 63) (s : VolumeState PortState) :
    (ahciVolume d writeDiskBlock partition blockCount logBlockSize h garbage stray).Honest
        node offset size s ↔
      (∀ e ∈ (ahciVolume d writeDiskBlock partition blockCount logBlockSize h garbage
        stray).requests node offset size s, e = true) ∧
      ¬ (ahciVolume d writeDiskBlock partition blockCount logBlockSize h garbage
        stray).DropsLastBlock node offset size :=
  Ext2Volume.honest_iff _ node offset size s hsize

/-- A disk of zeros behind a port with one slot. -/
def zeroDisk : PortDisk where
  errno := .library
  slotCount := 1
  media _ := List.replicate 512 0
  media_length _ := List.length_replicate

/-- A small volume with blocks of 1024 bytes. -/
def smallVolume : Ext2Volume PortState :=
  ahciVolume zeroDisk (fun _ _ buffer s ↦ (-1, buffer, s)) ⟨0, 100⟩ 40 0 zero_le_logBlockSize
    (fun _ _ ↦ 0xaa) (fun _ ↦ 0)

/-- A file of one byte, in block 3. -/
def byteFile : Ext2File := ⟨1, fun _ ↦ 3⟩

/-- An idle port whose commands all end as `ok` says. -/
def portState (ok : Bool) : VolumeState PortState where
  disk := ⟨fun _ ↦ ⟨fun _ ↦ false, true, fun _ ↦ false, fun _ ↦ ok⟩, 0⟩
  cache := LruCache.new 50 true
  mallocs := 0
  log := []

theorem read_honest_of_served : smallVolume.Honest byteFile 0 1 (portState true) :=
  (read_honest_iff zeroDisk _ ⟨0, 100⟩ 40 0 (by decide) _ _ byteFile 0 1 (by decide)
    (portState true)).mpr ⟨by decide, by decide⟩

/-- A failed command: `do_read`'s error becomes 1, which passes every test for a negative code, and
`read` returns the byte count with what `malloc` left in the block. -/
theorem read_dishonest_of_failed_command :
    ¬ smallVolume.Honest byteFile 0 1 (portState false) := by
  intro h
  have hneg := h.1 [0] (by decide) (by decide)
  exact absurd hneg (by decide)

end Borrrdex
