import Borrrdex.Fs.BlockMap

/-!
# Reading what is in a file

A file is the blocks that its block map names, one after the other.  `ReadsFile` says of one `read`
that it delivers as many bytes as there are, and those, and writes no others.  Whatever finds the
blocks is a parameter: `ExactMap` asks of it that it is the block map, as far as the blocks it has
to read can be fetched, which holds of `find_data_block` for files of up to 12 + N blocks.

`readsFile_iff` gives the requests that are served so: those whose end does not wrap around in 64
bits and whose last block is not dropped.
-/

set_option autoImplicit false

namespace Borrrdex

open Splice

variable {σ : Type}

namespace Ext2Volume

open VolumeState

variable (v : Ext2Volume σ) {find : U32 → VolumeState σ → ℤ × VolumeState σ} {node : Ext2File}
  {map : ℕ → U32}

/-- `find` is the block map of a file. -/
structure ExactMap (find : U32 → VolumeState σ → ℤ × VolumeState σ) (node : Ext2File)
    (map : ℕ → U32) : Prop where
  log : ∀ index s, s.log <+: (find index s).2.log
  value : ∀ (index : U32) (s : VolumeState σ), index.toNat * v.blockSize.toNat < node.size.toNat →
    (∀ e ∈ asked s (find index s).2, e = true) → (find index s).1 = (map index.toNat).toNat

/-- `find_data_block` is, for files without a double indirect block. -/
theorem exactMap_findDataBlock
    (hsize : node.size.toNat ≤ (12 + v.entries) * v.blockSize.toNat) :
    v.ExactMap (v.findDataBlock node) node (v.mappedBlock node) where
  log := v.prefix_findDataBlock node
  value _ _ hindex hall :=
    (v.mapsLikeExt2_of_lt node (Nat.lt_of_mul_lt_mul_right (hindex.trans_le hsize)) hall).value

/-- A byte of the file. -/
def fileByte (map : ℕ → U32) (p : ℕ) : Option Byte :=
  (v.blockBytes (map (p / v.blockSize.toNat)))[p % v.blockSize.toNat]?

/-- What a call asks of `read_block`. -/
def requestsBy (find : U32 → VolumeState σ → ℤ × VolumeState σ) (node : Ext2File)
    (offset size : U64) (s : VolumeState σ) : List Bool :=
  asked s (v.readBy find node offset size [] s).2.2

/-- **`read` delivers the file**: the number of bytes there are, these bytes, and nothing behind
them. -/
def ReadsFile (find : U32 → VolumeState σ → ℤ × VolumeState σ) (node : Ext2File)
    (map : ℕ → U32) (offset size : U64) (s : VolumeState σ) : Prop :=
  ∀ buffer, size.toNat ≤ buffer.length →
    (v.readBy find node offset size buffer s).1 = node.available offset size ∧
    (∀ p < node.available offset size,
      (v.readBy find node offset size buffer s).2.1[p]? = v.fileByte map (offset.toNat + p)) ∧
    ∀ p, node.available offset size ≤ p →
      (v.readBy find node offset size buffer s).2.1[p]? = buffer[p]?

/-! ## The blocks found -/

/-- The lookups of an exact map. -/
theorem ExactMap.findDataBlocksBy {v : Ext2Volume σ} (hexact : v.ExactMap find node map)
    (indices : List U32) (s : VolumeState σ)
    (hindices : ∀ index ∈ indices, index.toNat * v.blockSize.toNat < node.size.toNat)
    (hall : ∀ e ∈ asked s (findDataBlocksBy find indices s).2.2, e = true) :
    ∃ t, Ext2Volume.findDataBlocksBy find indices s =
      (0, indices.map fun index ↦ map index.toNat, t) := by
  induction indices generalizing s with
  | nil => exact ⟨s, rfl⟩
  | cons index indices ih =>
    rw [List.forall_mem_cons] at hindices
    have hlog := hexact.log index s
    have hrest := prefix_findDataBlocksBy hexact.log indices (find index s).2
    have hfirst : ∀ e ∈ asked s (find index s).2, e = true := by
      intro e he
      refine hall e ?_
      rw [Ext2Volume.findDataBlocksBy]
      dsimp only
      split
      · exact he
      · rw [asked_trans hlog hrest]
        exact List.mem_append_left _ he
    have hvalue := hexact.value index s hindices.1 hfirst
    have hpos : ¬ (find index s).1 < 0 := by
      rw [hvalue]
      exact not_lt.mpr (Int.natCast_nonneg _)
    rw [Ext2Volume.findDataBlocksBy] at hall ⊢
    dsimp only at hall ⊢
    rw [if_neg hpos] at hall ⊢
    obtain ⟨t, ht⟩ := ih (find index s).2 hindices.2 fun e he ↦ by
      refine hall e ?_
      rw [asked_trans hlog hrest]
      exact List.mem_append_right _ he
    refine ⟨t, ?_⟩
    rw [ht, hvalue, List.map_cons, BitVec.ofInt_natCast, BitVec.ofNat_toNat, BitVec.setWidth_eq]

/-- When every block can be fetched, the loop goes to its end. -/
theorem copyBlocks_ok (startOffset endSize size : U32) (count : ℕ) (blocks : List (ℕ × U32))
    (pos : ℕ) {data : List Byte} (buffer : List Byte) {s : VolumeState σ}
    (hdata : data.length = v.blockSize.toNat)
    (hall : ∀ e ∈ asked s (v.copyBlocks startOffset endSize size count blocks pos data
      buffer s).2.2, e = true) :
    (v.copyBlocks startOffset endSize size count blocks pos data buffer s).1 = true := by
  induction blocks generalizing pos data buffer s with
  | nil => rfl
  | cons block blocks ih =>
    obtain ⟨j, b⟩ := block
    obtain ⟨code, t, hcode, hread, hrest⟩ :=
      v.readBlock_of_asked startOffset endSize size count j b blocks pos buffer hdata hall
    have hlen := v.length_blockBytes b
    rw [copyBlocks] at hrest ⊢
    dsimp only at hrest ⊢
    rw [hread] at hrest ⊢
    dsimp only at hrest ⊢
    rw [if_neg (not_lt.mpr hcode)] at hrest ⊢
    split at hrest
    · next h =>
      rw [if_pos h]
      exact ih _ _ hlen hrest
    next h =>
    rw [if_neg h]
    split at hrest
    · next h' =>
      rw [if_pos h']
      exact ih _ _ hlen hrest
    · next h' =>
      rw [if_neg h']
      exact ih _ _ hlen hrest

variable {v} {offset size : U64} {s : VolumeState σ}

theorem mem_indices (hoffset : offset.toNat < node.size.toNat) :
    ∀ index ∈ v.indices node offset size, index.toNat * v.blockSize.toNat < node.size.toNat := by
  intro index hindex
  obtain ⟨i, hi, rfl⟩ := List.mem_map.mp hindex
  obtain ⟨hidx, hlt⟩ := v.toNat_index_lt hoffset (List.mem_range.mp hi)
  rw [hidx]
  exact hlt

/-- The blocks that the loop goes over are those of the map. -/
theorem loopBytes_numbered (hoffset : offset.toNat < node.size.toNat) :
    v.loopBytes (v.numbered ((v.indices node offset size).map fun index ↦ map index.toNat)
      (v.spanned node offset size)) =
    (List.range (v.spanned node offset size)).flatMap fun i ↦
      v.blockBytes (map (offset.toNat / v.blockSize.toNat + i)) := by
  rw [loopBytes, numbered, List.flatMap_map]
  refine List.flatMap_congr fun i hi ↦ ?_
  rw [List.mem_range] at hi
  have hget : ((v.indices node offset size).map fun index ↦ map index.toNat)[i]? =
      some (map (offset.toNat / v.blockSize.toNat + i)) := by
    rw [indices, List.map_map, List.getElem?_map, List.getElem?_range hi, Option.map_some,
      Function.comp_apply, (v.toNat_index_lt hoffset hi).1]
  rw [List.getD_eq_getElem?_getD, hget]
  rfl

/-- A byte of the blocks of a request is a byte of the file. -/
theorem getElem?_flatMap_blocks {p : ℕ} (hp : p < node.available offset size) :
    (((List.range (v.spanned node offset size)).flatMap fun i ↦
      v.blockBytes (map (offset.toNat / v.blockSize.toNat + i))).drop
        (offset.toNat % v.blockSize.toNat))[p]? = v.fileByte map (offset.toNat + p) := by
  have hpos := v.blockSize_pos
  have hle := v.available_le node offset size
  have hlt : offset.toNat % v.blockSize.toNat + p <
      v.spanned node offset size * v.blockSize.toNat := by omega
  have hsplit : offset.toNat + p = offset.toNat % v.blockSize.toNat + p +
      v.blockSize.toNat * (offset.toNat / v.blockSize.toNat) := by
    have := Nat.mod_add_div offset.toNat v.blockSize.toNat
    omega
  rw [List.getElem?_drop, getElem?_flatMap (fun _ ↦ v.length_blockBytes _) hpos,
    List.getElem?_range ((Nat.div_lt_iff_lt_mul hpos).mpr hlt), Option.bind_some, fileByte, hsplit,
    Nat.add_mul_div_left _ _ hpos, Nat.add_mul_mod_self_left, Nat.add_comm (_ / _)]

/-! ## Requests whose end does not wrap -/

/-- What is looked up is found, if every block asked for can be fetched. -/
theorem ExactMap.exists_found (hexact : v.ExactMap find node map)
    (hoffset : offset.toNat < node.size.toNat)
    (hindices : ∀ index ∈ v.lookedUp node offset size,
      index.toNat * v.blockSize.toNat < node.size.toNat)
    (hall : ∀ e ∈ v.requestsBy find node offset size s, e = true) :
    ∃ t, Ext2Volume.findDataBlocksBy find (v.lookedUp node offset size) s =
        (0, (v.lookedUp node offset size).map fun index ↦ map index.toNat, t) ∧
      ∀ e ∈ asked t (v.readBy find node offset size [] s).2.2, e = true := by
  have hprefix := v.prefix_readBy find size [] s hoffset
  have hlog := prefix_findDataBlocksBy hexact.log (v.lookedUp node offset size) s
  rw [requestsBy, asked_trans hlog hprefix] at hall
  obtain ⟨t, ht⟩ := hexact.findDataBlocksBy _ s hindices fun e he ↦
    hall e (List.mem_append_left _ he)
  refine ⟨t, ht, fun e he ↦ hall e (List.mem_append_right _ ?_)⟩
  rw [ht]
  exact he

/-- **A request whose end does not wrap**: the count is right, and what is copied is the blocks of
the map, without the last one if that is dropped. -/
theorem readBy_of_requests (hexact : v.ExactMap find node map)
    (hoffset : offset.toNat < node.size.toNat) (hwrap : offset.toNat + size.toNat < 2 ^ 64)
    (hall : ∀ e ∈ v.requestsBy find node offset size s, e = true) {buffer : List Byte}
    (hbuffer : size.toNat ≤ buffer.length) :
    ∃ t, v.readBy find node offset size buffer s =
      ((node.available offset size : ℤ), splice buffer 0
        ((((List.range (v.spanned node offset size)).flatMap fun i ↦
          v.blockBytes (map (offset.toNat / v.blockSize.toNat + i))).drop
            (offset.toNat % v.blockSize.toNat)).take (node.available offset size -
              if v.DropsLastBlock node offset size then v.blockSize.toNat else 0)), t) := by
  have hlooked := v.lookedUp_eq hoffset hwrap
  obtain ⟨t, hfind, hrest⟩ :=
    hexact.exists_found hoffset (hlooked ▸ mem_indices hoffset) hall
  rw [hlooked] at hfind
  obtain ⟨u, hu⟩ := v.readBy_of_found find node offset size s hoffset hwrap hfind hrest
    buffer hbuffer
  rw [loopBytes_numbered hoffset] at hu
  exact ⟨u, hu⟩

/-- The blocks of a request have all its bytes. -/
theorem available_le_length (v : Ext2Volume σ) (node : Ext2File) (offset size : U64)
    (map : ℕ → U32) : node.available offset size ≤
    (((List.range (v.spanned node offset size)).flatMap fun i ↦
      v.blockBytes (map (offset.toNat / v.blockSize.toNat + i))).drop
        (offset.toNat % v.blockSize.toNat)).length := by
  have hle := v.available_le node offset size
  rw [List.length_drop, List.length_flatMap]
  simp only [length_blockBytes, List.map_const', List.length_range, List.sum_replicate,
    smul_eq_mul]
  omega

theorem readsFile_of_not_drops (hexact : v.ExactMap find node map)
    (hoffset : offset.toNat < node.size.toNat) (hwrap : offset.toNat + size.toNat < 2 ^ 64)
    (hall : ∀ e ∈ v.requestsBy find node offset size s, e = true)
    (hdrop : ¬ v.DropsLastBlock node offset size) :
    v.ReadsFile find node map offset size s := by
  intro buffer hbuffer
  obtain ⟨t, ht⟩ := readBy_of_requests hexact hoffset hwrap hall hbuffer
  have hlen := v.available_le_length node offset size map
  have hle : node.available offset size ≤ size.toNat := Nat.min_le_left _ _
  rw [if_neg hdrop, Nat.sub_zero] at ht
  have htake := List.length_take_of_le hlen
  rw [ht]
  refine ⟨rfl, fun p hp ↦ ?_, fun p hp ↦ ?_⟩
  · dsimp only
    rw [getElem?_splice_zero_of_lt (htake.symm ▸ hp), List.getElem?_take_of_lt hp,
      getElem?_flatMap_blocks hp]
  · exact getElem?_splice_of_le (by omega) (by omega)

/-- The dropped block shows: what the buffer held before is still there. -/
theorem not_readsFile_of_drops (hexact : v.ExactMap find node map)
    (hoffset : offset.toNat < node.size.toNat) (hwrap : offset.toNat + size.toNat < 2 ^ 64)
    (hall : ∀ e ∈ v.requestsBy find node offset size s, e = true)
    (hdrop : v.DropsLastBlock node offset size) : ¬ v.ReadsFile find node map offset size s := by
  intro h
  have hlast := v.blockSize_le_of_two_le node offset size hdrop.1
  have hmod := Nat.mod_lt offset.toNat v.blockSize_pos
  have hle : node.available offset size ≤ size.toNat := Nat.min_le_left _ _
  -- the last byte counted is the buffer's own
  have hown : ∀ b : Byte, v.fileByte map (offset.toNat + (node.available offset size - 1)) =
      some b := by
    intro b
    have hbuffer : size.toNat ≤ (List.replicate size.toNat b).length := by simp
    obtain ⟨t, ht⟩ := readBy_of_requests hexact hoffset hwrap hall hbuffer
    have hbytes := (h _ hbuffer).2.1 (node.available offset size - 1) (by omega)
    rw [ht, if_pos hdrop] at hbytes
    dsimp only at hbytes
    rw [← hbytes, getElem?_splice_of_le (by simp; omega) (by simp; omega), List.getElem?_replicate,
      if_pos (by omega)]
  exact absurd ((hown 0).symm.trans (hown 1)) (by decide)

/-! ## Requests whose end wraps -/

/-- **A request whose end wraps around** is not cut to the file: the size it asked for is returned,
which is negative. -/
theorem readBy_of_wrap (hexact : v.ExactMap find node map)
    (hoffset : offset.toNat < node.size.toNat) (hwrap : 2 ^ 64 ≤ offset.toNat + size.toNat)
    (hall : ∀ e ∈ v.requestsBy find node offset size s, e = true) (buffer : List Byte) :
    (v.readBy find node offset size buffer s).1 = size.toInt := by
  have hlt := node.size.isLt
  have hsizelt := size.isLt
  have hbs := v.blockSize.isLt
  have hpos := v.blockSize_pos
  have hnlt : ¬ offset ≥ node.size.setWidth 64 := by bv_omega
  have hsum : (offset + size).toNat = offset.toNat + size.toNat - 2 ^ 64 := by
    rw [BitVec.toNat_add]
    omega
  have huncut : ¬ offset + size > node.size.setWidth 64 := by bv_omega
  have hround : (offset + size + v.blockSize.setWidth 64 - 1).toNat =
      offset.toNat + size.toNat - 2 ^ 64 + v.blockSize.toNat - 1 := by
    have h64 := v.toNat_blockSize64
    bv_omega
  have hstart := v.toNat_blockNum (x := offset) (by omega)
  have hstop := v.toNat_blockNum (x := offset + size + v.blockSize.setWidth 64 - 1) (by omega)
  rw [hround] at hstop
  -- at most the first block is looked up
  have hspan : ((((offset + size + v.blockSize.setWidth 64 - 1) / v.blockSize.setWidth 64).setWidth
      32 : U32)).toNat ≤ ((offset / v.blockSize.setWidth 64).setWidth 32 : U32).toNat + 1 := by
    rw [hstart, hstop, ← Nat.add_div_right _ hpos]
    exact Nat.div_le_div_right (by omega)
  have hindices : ∀ index ∈ v.lookedUp node offset size,
      index.toNat * v.blockSize.toNat < node.size.toNat := by
    intro index hindex
    rw [lookedUp, if_neg huncut] at hindex
    obtain ⟨i, hi, rfl⟩ := List.mem_map.mp hindex
    rw [List.mem_range] at hi
    obtain rfl : i = 0 := by omega
    have hmul := Nat.div_mul_le_self offset.toNat v.blockSize.toNat
    rw [BitVec.add_zero, hstart]
    omega
  obtain ⟨t, hfind, hrest⟩ := hexact.exists_found hoffset hindices hall
  rw [v.state_readBy find node offset size [] buffer] at hrest
  rw [lookedUp, if_neg huncut] at hfind
  rw [readBy] at hrest ⊢
  dsimp only at hrest ⊢
  rw [if_neg hnlt, if_neg huncut, hfind] at hrest ⊢
  dsimp only at hrest ⊢
  rw [if_neg (not_not_intro rfl)] at hrest ⊢
  rw [state_ite] at hrest
  rw [if_pos (v.copyBlocks_ok _ _ _ _ _ _ _ (v.length_mallocBlock _) hrest)]

/-- Inside the file, a request is served right if its end does not wrap and no block is dropped. -/
theorem readsFile_iff_of_lt (hexact : v.ExactMap find node map)
    (hoffset : offset.toNat < node.size.toNat)
    (hall : ∀ e ∈ v.requestsBy find node offset size s, e = true) :
    v.ReadsFile find node map offset size s ↔
      offset.toNat + size.toNat < 2 ^ 64 ∧ ¬ v.DropsLastBlock node offset size := by
  constructor
  · intro h
    have hwrap : offset.toNat + size.toNat < 2 ^ 64 := by
      by_contra hwrap
      have hlt := node.size.isLt
      have hcode := (h _ (List.length_replicate (a := (0 : Byte))).ge).1
      rw [readBy_of_wrap hexact hoffset (by omega) hall,
        BitVec.toInt_eq_toNat_cond, if_neg (by omega)] at hcode
      omega
    exact ⟨hwrap, fun hdrop ↦ not_readsFile_of_drops hexact hoffset hwrap hall hdrop h⟩
  · rintro ⟨hwrap, hdrop⟩
    exact readsFile_of_not_drops hexact hoffset hwrap hall hdrop

/-- Behind the end of the file there is nothing to deliver. -/
theorem readsFile_of_le (hoffset : node.size.toNat ≤ offset.toNat) :
    v.ReadsFile find node map offset size s := by
  intro buffer _
  have hnone : node.available offset size = 0 := by
    rw [Ext2File.available]
    omega
  rw [v.readBy_of_le find size buffer s hoffset, hnone]
  exact ⟨rfl, fun p hp ↦ absurd hp (Nat.not_lt_zero p), fun p _ ↦ rfl⟩

/-- **`read` as it is**, inside a file without a double indirect block. -/
theorem read_delivers_iff (hsize : node.size.toNat ≤ (12 + v.entries) * v.blockSize.toNat)
    (hoffset : offset.toNat < node.size.toNat)
    (hall : ∀ e ∈ v.requests node offset size s, e = true) :
    v.ReadsFile (v.findDataBlock node) node (v.mappedBlock node) offset size s ↔
      offset.toNat + size.toNat < 2 ^ 64 ∧ ¬ v.DropsLastBlock node offset size := by
  refine readsFile_iff_of_lt (v.exactMap_findDataBlock hsize) hoffset ?_
  rw [requestsBy, ← Ext2Volume.read]
  exact hall

/-- **Which requests deliver the file**: those behind its end, and those whose end does not wrap
around in 64 bits and whose last block is not dropped. -/
theorem readsFile_iff (hexact : v.ExactMap find node map)
    (hall : ∀ e ∈ v.requestsBy find node offset size s, e = true) :
    v.ReadsFile find node map offset size s ↔
      node.size.toNat ≤ offset.toNat ∨
        (offset.toNat + size.toNat < 2 ^ 64 ∧ ¬ v.DropsLastBlock node offset size) := by
  rcases Nat.lt_or_ge offset.toNat node.size.toNat with hoffset | hoffset
  · rw [or_iff_right (not_le.mpr hoffset)]
    exact readsFile_iff_of_lt hexact hoffset hall
  · exact iff_of_true (readsFile_of_le hoffset) (.inl hoffset)

/-- A volume of forty blocks of a kilobyte, all zero. -/
def zeroVolume : Ext2Volume Unit := zeroImage.toVolume 40 0 zero_le_logBlockSize

/-- A file of two blocks, from block 3 on. -/
def twoBlocks : Ext2File := ⟨2048, fun i ↦ BitVec.ofNat 32 (3 + i)⟩

/-- The block map of that file, without reading anything. -/
def fromBlockThree (index : U32) (s : VolumeState Unit) : ℤ × VolumeState Unit :=
  ((BitVec.ofNat 32 (3 + index.toNat)).toNat, s)

theorem exactMap_fromBlockThree :
    zeroVolume.ExactMap fromBlockThree twoBlocks fun i ↦ BitVec.ofNat 32 (3 + i) where
  log _ _ := List.prefix_rfl
  value _ _ _ _ := rfl

theorem readsFile_first_bytes :
    zeroVolume.ReadsFile fromBlockThree twoBlocks (fun i ↦ BitVec.ofNat 32 (3 + i)) 1000 100
      DiskImage.mounted :=
  (readsFile_iff exactMap_fromBlockThree (by decide)).mpr (.inr ⟨by decide, by decide⟩)

/-- Both blocks of the file, asked for at once: the second one is not copied. -/
theorem not_readsFile_twoBlocks :
    ¬ zeroVolume.ReadsFile fromBlockThree twoBlocks (fun i ↦ BitVec.ofNat 32 (3 + i)) 0 2048
      DiskImage.mounted :=
  not_readsFile_of_drops exactMap_fromBlockThree (by decide) (by decide) (by decide) (by decide)

end Ext2Volume

end Borrrdex
