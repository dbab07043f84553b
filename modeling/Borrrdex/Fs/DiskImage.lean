import Mathlib.Data.BitVec
import Borrrdex.Fs.Ext2

/-!
# Volumes on a disk image

A disk that holds given bytes, some of whose sectors cannot be read, and an ext2 volume on it.  It
does not change, so every statement about volumes on fixed media can be tried on it, and the bytes
of a block are found where one expects them (`getElem?_blockBytes`).
-/

set_option autoImplicit false

namespace Borrrdex

open Splice

/-- What is on a disk, and the sectors that cannot be read. -/
structure DiskImage where
  bytes : ℕ → Byte
  fails : ℕ → Bool

namespace DiskImage

/-- The bytes of `count` sectors from `lba` on. -/
def contents (image : DiskImage) (lba : U64) (count : U32) : List Byte :=
  (List.range (count.toNat * 512)).map fun i ↦ image.bytes (lba.toNat * 512 + i)

/-- Whether all of them can be read. -/
def readable (image : DiskImage) (lba : U64) (count : U32) : Bool :=
  (List.range count.toNat).all fun i ↦ !image.fails (lba.toNat + i)

/-- The disk.  It has no state, and nothing is ever written to it. -/
def toDisk (image : DiskImage) : Disk Unit where
  blockSize := 512
  readDiskBlock lba count buffer s :=
    if image.readable lba count then (count.toNat, splice buffer 0 (image.contents lba count), s)
    else (-1, buffer, s)
  writeDiskBlock _ _ buffer s := (-1, buffer, s)

def toMedia (image : DiskImage) : Media image.toDisk where
  contents := image.contents
  served lba count _ := image.readable lba count
  length_contents lba count := by
    rw [contents, List.length_map, List.length_range]
    rfl
  read_served lba count buffer s hserved _ _ :=
    ⟨count.toNat, s, Int.natCast_nonneg _, if_pos hserved⟩

theorem blockSize_toDisk (image : DiskImage) : image.toDisk.blockSize = 512 := rfl

theorem fixed_toMedia (image : DiskImage) : image.toMedia.Fixed where
  served_eq _ _ _ _ := rfl
  failed lba count buffer s h := by
    rw [show image.toDisk.readDiskBlock lba count buffer s = (-1, buffer, s) from
      if_neg (Bool.eq_false_iff.mp h)]
    exact Int.negSucc_lt_zero 0

/-- A volume that begins with the disk and has `blockCount` blocks; the partition has room for any
number of them. -/
def toVolume (image : DiskImage) (blockCount : U32) (logBlockSize : ℕ) (h : logBlockSize ≤ 21) :
    Ext2Volume Unit where
  disk := image.toDisk
  media := image.toMedia
  partition := ⟨0, 2 ^ 40⟩
  errno := .library
  blockCount := blockCount
  logBlockSize := logBlockSize
  garbage _ _ := 0xaa
  stray _ := 0
  logBlockSize_le := h
  sector_eq := image.blockSize_toDisk

/-- The state of a volume just mounted. -/
def mounted : VolumeState Unit := ⟨(), LruCache.new 50 true, 0, []⟩

variable (image : DiskImage) (blockCount : U32) {logBlockSize : ℕ} (h : logBlockSize ≤ 21)

/-- Every block is far from the end of the partition. -/
theorem passes_toVolume (b : U32) : (image.toVolume blockCount logBlockSize h).passes b := by
  set v := image.toVolume blockCount logBlockSize h
  have hlba : (v.blockLba b).toNat < 2 ^ 32 := by
    rw [Ext2Volume.blockLba, BitVec.toNat_setWidth_of_le (by decide)]
    exact BitVec.isLt _
  have hcount := v.sectorsPerBlock_lt
  have hle : v.partition.startLba ≤ v.partition.endLba := (by decide : (0 : U64) ≤ 2 ^ 40)
  rw [Ext2Volume.passes, Partition.outOfRange_eq_false_iff hle, Partition.Passes]
  rw [show v.disk.blockSize.toNat = 512 from rfl, show v.partition.endLba.toNat = 2 ^ 40 from rfl,
    show v.partition.startLba.toNat = 0 from rfl, Nat.mod_eq_of_lt (by omega)]
  omega

/-- Where a block is on the disk, as long as its first sector's number has 32 bits. -/
theorem getElem?_blockBytes {b : U32} {i : ℕ}
    (hb : (b.toNat + 1) * (image.toVolume blockCount logBlockSize h).blockSize.toNat ≤ 2 ^ 41)
    (hi : i < (image.toVolume blockCount logBlockSize h).blockSize.toNat) :
    ((image.toVolume blockCount logBlockSize h).blockBytes b)[i]? =
      some (image.bytes (b.toNat * (image.toVolume blockCount logBlockSize h).blockSize.toNat +
        i)) := by
  set v := image.toVolume blockCount logBlockSize h
  have hsectors := v.sectorsPerBlock_mul
  have hmul : b.toNat * v.sectorsPerBlock.toNat * 512 = b.toNat * v.blockSize.toNat := by
    rw [Nat.mul_assoc, hsectors]
  rw [Nat.succ_mul] at hb
  have hlba : (v.blockLba b + v.partition.startLba).toNat =
      b.toNat * v.sectorsPerBlock.toNat := by
    rw [show v.partition.startLba = 0#64 from rfl, BitVec.add_zero, Ext2Volume.blockLba,
      BitVec.toNat_setWidth_of_le (by decide), BitVec.toNat_mul, Nat.mod_eq_of_lt (by omega)]
  rw [Ext2Volume.blockBytes]
  change (image.contents _ _)[i]? = _
  rw [contents, List.getElem?_map, List.getElem?_range (by omega), hlba, hmul]
  rfl

end DiskImage

end Borrrdex
