import Borrrdex.Kstd.LruCache
import Borrrdex.Lib.Splice
import Borrrdex.Storage.AhciPort

/-!
# Reading files from an ext2 volume

`ext2_volume::read` and what it rests on: `read_block` with its cache of fifty blocks,
`find_data_block`, which walks the direct, single, double and triple indirect blocks of an inode,
and the loop that copies the blocks out.  A volume sits on a partition of any disk; `Media` says
which requests the disk serves and what is on it.

Memory that the source leaves uninitialised is arbitrary here: `garbage` is what `malloc` returns
and `stray` what lies behind a heap buffer, where the triple indirect walk can read.

The state carries a `log` that is not in the source: for every block asked of `read_block`, whether
the block could be fetched.  It is what the statements about errors speak of.
-/

set_option autoImplicit false

namespace Borrrdex

open Splice

variable {σ : Type}

/-- What is on a disk, and which requests to it move their data.  A request that is served fills
the buffer and returns a code that is not negative; of the others nothing is known. -/
structure Media (disk : Disk σ) where
  contents : U64 → U32 → List Byte
  served : U64 → U32 → σ → Bool
  length_contents : ∀ lba count,
    (contents lba count).length = count.toNat * disk.blockSize.toNat
  read_served : ∀ lba count buffer s, served lba count s = true →
    count.toNat < 2 ^ 31 → count.toNat * disk.blockSize.toNat ≤ buffer.length →
    ∃ code s', 0 ≤ code ∧
      disk.readDiskBlock lba count buffer s = (code, splice buffer 0 (contents lba count), s')

/-- A disk that does not change: what it serves does not depend on its state, and what it does not
serve fails. -/
structure Media.Fixed {disk : Disk σ} (media : Media disk) : Prop where
  served_eq : ∀ lba count s s', media.served lba count s = media.served lba count s'
  failed : ∀ lba count buffer s, media.served lba count s = false →
    (disk.readDiskBlock lba count buffer s).1 < 0

/-- A mounted volume.  `logBlockSize` is the superblock's; the constructor computes the block size
as `1024 << log_block_size`, in 32 bits, and divides by it when it reads the root's inode, so on a
mounted volume it is not 0. -/
structure Ext2Volume (σ : Type) where
  disk : Disk σ
  media : Media disk
  partition : Partition
  errno : Errno
  blockCount : U32
  logBlockSize : ℕ
  garbage : ℕ → ℕ → Byte
  stray : ℕ → U32
  logBlockSize_le : logBlockSize ≤ 21
  sector_eq : disk.blockSize = 512

/-- Blocks of 1024 bytes, the smallest there are. -/
theorem zero_le_logBlockSize : 0 ≤ 21 := Nat.zero_le 21

/-- The disk below, the cache of blocks, the number of `malloc`s so far, and the log. -/
structure VolumeState (σ : Type) where
  disk : σ
  cache : LruCache U32 (List Byte)
  mallocs : ℕ
  log : List Bool

/-- What `read` uses of an `ext2_node`: the size, which is the inode's 32-bit `i_size`, and the
fifteen block pointers. -/
structure Ext2File where
  size : U32
  iBlock : ℕ → U32

namespace Ext2Volume

variable (v : Ext2Volume σ)

/-- `_block_size`. -/
def blockSize : U32 := 1024#32 <<< v.logBlockSize

/-- `sectors_per_block`. -/
def sectorsPerBlock : U32 := v.blockSize / v.disk.blockSize

/-- `block_num * sectors_per_block`, a 32-bit product. -/
def blockLba (blockNum : U32) : U64 := (blockNum * v.sectorsPerBlock).setWidth 64

/-- What `malloc(_block_size)` returns the `n`-th time. -/
def mallocBlock (n : ℕ) : List Byte := (List.range v.blockSize.toNat).map (v.garbage n)

/-- The lambda `do_disk_read` of `read_block`. -/
def doDiskRead (blockNum : U32) (b : List Byte) (s : σ) : ℤ × List Byte × σ :=
  v.partition.readBlock v.disk (v.blockLba blockNum) v.sectorsPerBlock b s

/-- The bytes on the disk that a request for a block is about. -/
def blockBytes (blockNum : U32) : List Byte :=
  v.media.contents (v.blockLba blockNum + v.partition.startLba) v.sectorsPerBlock

/-- The first sector of a block. -/
def blockSector (blockNum : U32) : ℕ :=
  v.partition.startLba.toNat + blockNum.toNat * v.sectorsPerBlock.toNat

/-- The bytes of a block. -/
def blockContents (blockNum : U32) : List Byte :=
  v.media.contents (BitVec.ofNat 64 (v.blockSector blockNum)) v.sectorsPerBlock

/-- The 32-bit product in a request for a block does not wrap around. -/
def Addressed (blockNum : U32) : Prop := blockNum.toNat * v.sectorsPerBlock.toNat < 2 ^ 32

instance (blockNum : U32) : Decidable (v.Addressed blockNum) :=
  inferInstanceAs (Decidable (_ < _))

/-- The partition lets the requests for a block through. -/
def passes (b : U32) : Prop :=
  v.partition.outOfRange v.disk.blockSize (v.blockLba b) v.sectorsPerBlock = false

/-- The disk serves the requests for a block. -/
def serves (b : U32) (disk : σ) : Prop :=
  v.media.served (v.blockLba b + v.partition.startLba) v.sectorsPerBlock disk = true

instance (b : U32) (disk : σ) : Decidable (v.serves b disk) :=
  inferInstanceAs (Decidable (_ = true))

/-- Whether a block asked for now can be fetched: it is on the volume, and it is in the cache as
it is on the disk or the disk is going to serve it. -/
def fetchable (s : VolumeState σ) (blockNum : U32) (cache : Bool) : Bool :=
  decide (blockNum ≤ v.blockCount) &&
    match if cache then s.cache.get blockNum else none with
    | some cached => decide (cached = v.blockBytes blockNum)
    | none =>
      !v.partition.outOfRange v.disk.blockSize (v.blockLba blockNum) v.sectorsPerBlock &&
        v.media.served (v.blockLba blockNum + v.partition.startLba) v.sectorsPerBlock s.disk

/-- `read_block`.  A failed read of a block to be cached returns `e`, which is 1. -/
def readBlock (blockNum : U32) (buffer : List Byte) (cache : Bool) (s : VolumeState σ) :
    ℤ × List Byte × VolumeState σ :=
  let s := { s with log := s.log ++ [v.fetchable s blockNum cache] }
  if blockNum > v.blockCount then (-1, buffer, s)
  else if cache then
    match s.cache.get blockNum with
    | some cached => (1, splice buffer 0 cached, s)
    | none =>
      let (e, cached, disk) := v.doDiskRead blockNum (v.mallocBlock s.mallocs) s.disk
      let s := { s with disk := disk, mallocs := s.mallocs + 1 }
      if e < 0 then (1, buffer, s)
      else
        -- `set` cannot fail: the cache has room for fifty blocks
        let cache := ((s.cache.set blockNum cached).map Prod.fst).getD s.cache
        (1, splice buffer 0 cached, { s with cache := cache })
  else
    let (e, buffer, disk) := v.doDiskRead blockNum buffer s.disk
    (e, buffer, { s with disk := disk })

/-- `*(block_buffer + i)`, little endian; behind the buffer lies something else. -/
def wordAt (buffer : List Byte) (i : ℕ) : U32 :=
  match buffer.drop (4 * i) with
  | b₀ :: b₁ :: b₂ :: b₃ :: _ => b₃ ++ b₂ ++ b₁ ++ b₀
  | _ => v.stray i

/-- `read_block` into `block_buffer` and the word at `i`, the step all indirect lookups are made
of: `if(int e = read_block(..) < 0) return e`, then `*(block_buffer + i)`. -/
def indirect (blockNum : U32) (cache : Bool) (i : U32) (blockBuffer : List Byte)
    (s : VolumeState σ) : Option U32 × List Byte × VolumeState σ :=
  let (e, blockBuffer, s) := v.readBlock blockNum blockBuffer cache s
  if e < 0 then (none, blockBuffer, s)
  else (some (v.wordAt blockBuffer i.toNat), blockBuffer, s)

/-- `find_data_block`. -/
def findDataBlock (inode : Ext2File) (index : U32) (s : VolumeState σ) : ℤ × VolumeState σ :=
  let ind : U32 := 12
  if index < ind then ((inode.iBlock index.toNat).toNat, s)
  else
    let blockBuffer := v.mallocBlock s.mallocs
    let s := { s with mallocs := s.mallocs + 1 }
    let entries := v.blockSize / 4
    if index < ind + entries then
      match v.indirect (inode.iBlock 12) true (index - ind) blockBuffer s with
      | (none, _, s) => (1, s)
      | (some block, _, s) => (block.toNat, s)
    else
      let max := ind + entries * entries
      if index < max then
        let index := index - ind
        match v.indirect (inode.iBlock 13) true (index / entries) blockBuffer s with
        | (none, _, s) => (1, s)
        | (some next, blockBuffer, s) =>
          match v.indirect next false (index % entries) blockBuffer s with
          | (none, _, s) => (1, s)
          | (some block, _, s) => (block.toNat, s)
      else
        let max := max + entries * v.blockSize * v.blockSize
        if index > max then (-v.errno.einval, s)
        else
          let index := index - ind
          match v.indirect (inode.iBlock 14) true (index / (entries * entries)) blockBuffer s with
          | (none, _, s) => (1, s)
          | (some next, blockBuffer, s) =>
            match v.indirect next true (index / entries) blockBuffer s with
            | (none, _, s) => (1, s)
            | (some next, blockBuffer, s) =>
              match v.indirect next true (index % entries) blockBuffer s with
              | (none, _, s) => (1, s)
              | (some block, _, s) => (block.toNat, s)

/-- `find_data_blocks`, over the indices from `start` to `end`, with `find` in the place of
`find_data_block`: what `read` does with block numbers does not depend on where they come from. -/
def findDataBlocksBy (find : U32 → VolumeState σ → ℤ × VolumeState σ) :
    List U32 → VolumeState σ → ℤ × List U32 × VolumeState σ
  | [], s => (0, [], s)
  | index :: indices, s =>
    let (found, s) := find index s
    if found < 0 then (found, [], s)
    else
      let (result, blocks, s) := findDataBlocksBy find indices s
      (result, BitVec.ofInt 32 found :: blocks, s)

/-- `find_data_blocks`. -/
def findDataBlocks (inode : Ext2File) :
    List U32 → VolumeState σ → ℤ × List U32 × VolumeState σ :=
  findDataBlocksBy (v.findDataBlock inode)

/-- The loop of `read`, over the numbered blocks that are left.  It returns `none` where the
source returns `e`, with the buffer as it is at that point; `pos` is `b - buffer`. -/
def copyBlocks (startOffset endSize size : U32) (count : ℕ) :
    List (ℕ × U32) → ℕ → List Byte → List Byte → VolumeState σ →
      Bool × List Byte × VolumeState σ
  | [], _, _, buffer, s => (true, buffer, s)
  | (i, block) :: blocks, pos, data, buffer, s =>
    let (e, data, s) := v.readBlock block data true s
    if e < 0 then (false, buffer, s)
    else if i = 0 then
      let room := v.blockSize - startOffset
      let firstSize := (if room > size then size else room).toNat
      copyBlocks startOffset endSize size count blocks (pos + firstSize) data
        (splice buffer pos ((data.drop startOffset.toNat).take firstSize)) s
    else if i = count - 1 then
      copyBlocks startOffset endSize size count blocks pos data
        (splice buffer pos (data.take endSize.toNat)) s
    else
      copyBlocks startOffset endSize size count blocks (pos + v.blockSize.toNat) data
        (splice buffer pos (data.take v.blockSize.toNat)) s

/-- `read`, with `find` in the place of `find_data_block`. -/
def readBy (find : U32 → VolumeState σ → ℤ × VolumeState σ) (node : Ext2File) (offset size : U64)
    (buffer : List Byte) (s : VolumeState σ) : ℤ × List Byte × VolumeState σ :=
  let nodeSize := node.size.setWidth 64
  let blockSize := v.blockSize.setWidth 64
  if offset ≥ nodeSize then (0, buffer, s)
  else
    let size := if offset + size > nodeSize then nodeSize - offset else size
    let startBlockNum : U32 := (offset / blockSize).setWidth 32
    let startBlockOffset : U32 := (offset % blockSize).setWidth 32
    let endBlockNum : U32 := ((offset + size + blockSize - 1) / blockSize).setWidth 32
    let endBlockSize : U32 := ((offset + size) % blockSize).setWidth 32
    let blockCount := endBlockNum - startBlockNum
    let indices := (List.range (endBlockNum.toNat - startBlockNum.toNat)).map fun i ↦
      startBlockNum + BitVec.ofNat 32 i
    let (success, blockList, s) := findDataBlocksBy find indices s
    if success ≠ 0 then (success, buffer, s)
    else
      let blocks := (List.range blockCount.toNat).map fun i ↦ (i, blockList.getD i (v.stray i))
      let data := v.mallocBlock s.mallocs
      let s := { s with mallocs := s.mallocs + 1 }
      let (ok, buffer, s) := v.copyBlocks startBlockOffset endBlockSize (size.setWidth 32)
        blockCount.toNat blocks 0 data buffer s
      if ok then (size.toInt, buffer, s) else (1, buffer, s)

/-- `read`: the code returned, the caller's buffer and the state. -/
def read (node : Ext2File) (offset size : U64) (buffer : List Byte) (s : VolumeState σ) :
    ℤ × List Byte × VolumeState σ :=
  v.readBy (v.findDataBlock node) node offset size buffer s

variable {v} in
/-- A request for a block is about the block, if the product does not wrap around. -/
theorem Addressed.lba_eq {b : U32} (h : v.Addressed b) :
    v.blockLba b + v.partition.startLba = BitVec.ofNat 64 (v.blockSector b) := by
  refine BitVec.eq_of_toNat_eq ?_
  rw [BitVec.toNat_add, BitVec.toNat_ofNat, blockLba, BitVec.toNat_setWidth_of_le (by decide),
    BitVec.toNat_mul, Nat.mod_eq_of_lt h, blockSector, Nat.add_comm]

variable {v} in
theorem Addressed.blockBytes_eq {b : U32} (h : v.Addressed b) :
    v.blockBytes b = v.blockContents b := by
  rw [blockBytes, blockContents, h.lba_eq]

/-! ## Block sizes -/

theorem toNat_blockSize : v.blockSize.toNat = 2 ^ (10 + v.logBlockSize) := by
  have h := v.logBlockSize_le
  rw [blockSize, BitVec.toNat_shiftLeft, BitVec.toNat_ofNat, Nat.shiftLeft_eq]
  have hlt : 2 ^ (10 + v.logBlockSize) < 2 ^ 32 := Nat.pow_lt_pow_right (by decide) (by omega)
  rw [show 1024 % 2 ^ 32 * 2 ^ v.logBlockSize = 2 ^ (10 + v.logBlockSize) by
    rw [Nat.pow_add]; rfl, Nat.mod_eq_of_lt hlt]

theorem blockSize_pos : 0 < v.blockSize.toNat := by
  rw [toNat_blockSize]
  exact Nat.two_pow_pos _

theorem blockSize_le : v.blockSize.toNat ≤ 2 ^ 31 := by
  rw [v.toNat_blockSize]
  exact Nat.pow_le_pow_right (by decide) (Nat.add_le_add_left v.logBlockSize_le 10)

/-- A block is a whole number of sectors, at least two. -/
theorem sectorsPerBlock_mul : v.sectorsPerBlock.toNat * 512 = v.blockSize.toNat := by
  rw [sectorsPerBlock, v.sector_eq, BitVec.toNat_udiv, toNat_blockSize]
  refine Nat.div_mul_cancel ?_
  exact pow_dvd_pow 2 (by omega : 9 ≤ 10 + v.logBlockSize)

theorem sectorsPerBlock_lt : v.sectorsPerBlock.toNat < 2 ^ 31 := by
  have h := v.sectorsPerBlock_mul
  have := v.blockSize.isLt
  omega

@[simp] theorem length_mallocBlock (n : ℕ) : (v.mallocBlock n).length = v.blockSize.toNat := by
  simp [mallocBlock]

@[simp] theorem length_blockBytes (b : U32) : (v.blockBytes b).length = v.blockSize.toNat := by
  rw [blockBytes, v.media.length_contents, v.sector_eq, ← v.sectorsPerBlock_mul]
  rfl

/-! ## One block -/

/-- Every call adds its entry to the log. -/
theorem log_readBlock (b : U32) (buffer : List Byte) (cache : Bool) (s : VolumeState σ) :
    (v.readBlock b buffer cache s).2.2.log = s.log ++ [v.fetchable s b cache] := by
  rw [readBlock]
  split
  · rfl
  · split
    · split
      · rfl
      · dsimp only
        split <;> rfl
    · rfl

/-- With the cache, the code says nothing about the disk: it is negative exactly for a block
number beyond the volume. -/
theorem readBlock_neg_iff (b : U32) (buffer : List Byte) (s : VolumeState σ) :
    (v.readBlock b buffer true s).1 < 0 ↔ b > v.blockCount := by
  rw [readBlock]
  split
  · next h => simp [h]
  · next h =>
    refine iff_of_false ?_ h
    rw [if_pos rfl]
    split
    · simp
    · dsimp only
      split <;> simp

/-- A read of the disk that is served. -/
theorem doDiskRead_served {b : U32} {buffer : List Byte} {s : σ}
    (hrange : v.partition.outOfRange v.disk.blockSize (v.blockLba b) v.sectorsPerBlock = false)
    (hserved : v.media.served (v.blockLba b + v.partition.startLba) v.sectorsPerBlock s = true)
    (hlen : buffer.length = v.blockSize.toNat) :
    ∃ code s', 0 ≤ code ∧ v.doDiskRead b buffer s = (code, v.blockBytes b, s') := by
  have hbytes : v.sectorsPerBlock.toNat * v.disk.blockSize.toNat = v.blockSize.toNat := by
    rw [v.sector_eq, ← v.sectorsPerBlock_mul]
    rfl
  obtain ⟨code, s', hcode, hread⟩ := v.media.read_served _ _ buffer s hserved
    v.sectorsPerBlock_lt (by rw [hbytes, hlen])
  refine ⟨code, s', hcode, ?_⟩
  rw [doDiskRead, Partition.readBlock, Partition.guarded, hrange, if_neg (by simp), hread]
  rw [splice_zero_of_length]
  · rfl
  · rw [v.media.length_contents, hbytes, hlen]

/-- **A block that can be fetched is**, whole. -/
theorem readBlock_fetchable {b : U32} {buffer : List Byte} {cache : Bool} {s : VolumeState σ}
    (h : v.fetchable s b cache = true) (hlen : buffer.length = v.blockSize.toNat) :
    0 ≤ (v.readBlock b buffer cache s).1 ∧ (v.readBlock b buffer cache s).2.1 = v.blockBytes b := by
  have hsplice : splice buffer 0 (v.blockBytes b) = v.blockBytes b :=
    splice_zero_of_length (by rw [length_blockBytes, hlen])
  rw [fetchable, Bool.and_eq_true, decide_eq_true_eq] at h
  obtain ⟨hle, h⟩ := h
  have hgt : ¬ b > v.blockCount := BitVec.not_lt.mpr hle
  rw [readBlock, if_neg hgt]
  cases cache with
  | true =>
    simp only [if_true] at h ⊢
    cases hget : s.cache.get b with
    | some cached =>
      simp only [hget, decide_eq_true_eq] at h
      simp only [h, hsplice]
      exact ⟨by decide, trivial⟩
    | none =>
      simp only [hget, Bool.and_eq_true, Bool.not_eq_true'] at h
      obtain ⟨code, disk, hcode, hread⟩ := v.doDiskRead_served h.1 h.2
        (v.length_mallocBlock s.mallocs)
      simp only [hread, not_lt.mpr hcode, if_false, hsplice]
      exact ⟨by decide, trivial⟩
  | false =>
    simp only [Bool.false_eq_true, if_false, Bool.and_eq_true, Bool.not_eq_true'] at h ⊢
    obtain ⟨code, disk, hcode, hread⟩ := v.doDiskRead_served h.1 h.2 hlen
    simp only [hread]
    exact ⟨hcode, trivial⟩

end Ext2Volume

end Borrrdex
