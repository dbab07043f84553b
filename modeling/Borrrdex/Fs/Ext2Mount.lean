import Mathlib.Data.BitVec
import Borrrdex.Fs.BlockCache

/-!
# Mounting an ext2 volume

`ext2_init` reads the superblock, and the constructor of `ext2_volume` computes from it how many
block groups there are and where their descriptors lie, loads these and reads the root's inode.  The
numbers come from the disk and are not looked at before they are divided by, shifted by or used as
an index: what the code must not do with them is a `Fault` here.

`mountsSoundly_iff` gives the superblocks for which nothing of the kind happens.
-/

set_option autoImplicit false

namespace Borrrdex

open Splice

variable {σ : Type}

/-! ## What is on the disk -/

/-- A 16-bit word, little endian. -/
def le16 (bytes : ℕ → Byte) (p : ℕ) : BitVec 16 := bytes (p + 1) ++ bytes p

/-- A 32-bit word, little endian. -/
def le32 (bytes : ℕ → Byte) (p : ℕ) : U32 :=
  bytes (p + 3) ++ bytes (p + 2) ++ bytes (p + 1) ++ bytes p

/-- What the volume uses of `ext2_super_block_ext_t`. -/
structure SuperBlockExt where
  inodeSize : BitVec 16
  featureIncompat : U32
  featureRoCompat : U32
  deriving DecidableEq

/-- What the volume uses of `ext2_super_block_t`, and the extension behind it. -/
structure SuperBlock where
  inodeCount : U32
  blockCount : U32
  logBlockSize : U32
  blocksPerGroup : U32
  inodesPerGroup : U32
  magic : BitVec 16
  revLevel : U32
  ext : SuperBlockExt
  deriving DecidableEq

/-- What the volume uses of an `ext2_block_group_desc_t` is `bg_inode_table`, its third word; this
is that word's place among the words of the table of descriptors. -/
def inodeTableWord (group : ℕ) : ℕ := 8 * group + 2

namespace SuperBlock

/-- The superblock, by its bytes. -/
def ofBytes (bytes : ℕ → Byte) : SuperBlock where
  inodeCount := le32 bytes 0
  blockCount := le32 bytes 4
  logBlockSize := le32 bytes 24
  blocksPerGroup := le32 bytes 32
  inodesPerGroup := le32 bytes 40
  magic := le16 bytes 56
  revLevel := le32 bytes 76
  ext :=
    { inodeSize := le16 bytes 88
      featureIncompat := le32 bytes 96
      featureRoCompat := le32 bytes 100 }

variable (sb : SuperBlock)

/-- The test of `ext2_init`. -/
def accepted : Bool := !(decide (sb.magic ≠ 0xEF53#16) || decide (sb.revLevel > 1))

/-- The test of the constructor: features that the volume does not know. -/
def incompatible : Bool :=
  decide (sb.revLevel ≠ 0) &&
    (decide (sb.ext.featureIncompat &&& ~~~2 ≠ 0) || decide (sb.ext.featureRoCompat &&& ~~~3 ≠ 0))

/-- `_block_group_count`, with `blocks_per_group` not 0. -/
def blockGroupCount : U32 := (sb.blockCount + sb.blocksPerGroup - 1) / sb.blocksPerGroup

/-- `_block_size`, with `log_block_size` below 32. -/
def blockSize : U32 := 1024#32 <<< sb.logBlockSize.toNat

/-- `_inode_size`. -/
def inodeSize : U32 := if sb.revLevel > 0 then sb.ext.inodeSize.setWidth 32 else 128

/-- Where the inode with an index is in its block, as `read_inode` has it. -/
def inodeOffset (index : U32) : U32 :=
  sb.inodeSize * (index % sb.inodesPerGroup % (sb.blockSize / sb.inodeSize))

theorem logBlockSize_le_of_blockSize_ne (h : sb.blockSize ≠ 0) : sb.logBlockSize.toNat ≤ 21 := by
  by_contra hlog
  refine h ?_
  rw [← BitVec.toNat_inj, blockSize, BitVec.toNat_shiftLeft, Nat.shiftLeft_eq]
  refine Nat.mod_eq_zero_of_dvd ?_
  rw [show (1024#32).toNat = 2 ^ 10 from rfl, ← pow_add]
  exact pow_dvd_pow 2 (by omega)

theorem blockSize_ne_iff : sb.blockSize ≠ 0 ↔ sb.logBlockSize.toNat ≤ 21 := by
  refine ⟨sb.logBlockSize_le_of_blockSize_ne, fun hlog h ↦ ?_⟩
  rw [← BitVec.toNat_inj, blockSize, BitVec.toNat_shiftLeft, Nat.shiftLeft_eq,
    show (1024#32).toNat = 2 ^ 10 from rfl, ← pow_add, Nat.mod_eq_of_lt] at h
  · exact absurd h (Nat.two_pow_pos _).ne'
  · exact Nat.pow_lt_pow_right (by decide) (by omega)

end SuperBlock

/-! ## The constructor -/

/-- What the code must not do. -/
inductive Fault
  /-- A division by zero, or a remainder. -/
  | division
  /-- A shift of a 32-bit number by 32 or more. -/
  | shift
  /-- A block group from `_block_group_count` on. -/
  | group
  deriving DecidableEq

/-- The partition that a volume is mounted from, with what an `Ext2Volume` has besides the
superblock. -/
structure Ext2Device (σ : Type) where
  disk : Disk σ
  media : Media disk
  partition : Partition
  errno : Errno
  garbage : ℕ → ℕ → Byte
  stray : ℕ → U32
  sector_eq : disk.blockSize = 512

/-- `ext2_volume`, when its constructor returns: `_error`, `_block_groups`, what was read of the
root's inode, and the caches. -/
structure Mount (σ : Type) where
  sb : SuperBlock
  error : ℕ
  blockGroups : List Byte
  root : Option (List Byte)
  state : VolumeState σ

namespace Ext2Device

variable (d : Ext2Device σ)

/-- The volume with a given superblock. -/
def toVolume (sb : SuperBlock) (h : sb.logBlockSize.toNat ≤ 21) : Ext2Volume σ where
  disk := d.disk
  media := d.media
  partition := d.partition
  errno := d.errno
  blockCount := sb.blockCount
  logBlockSize := sb.logBlockSize.toNat
  garbage := d.garbage
  stray := d.stray
  logBlockSize_le := h
  sector_eq := d.sector_eq

/-- `partition_device::read_bytes`, into the `n`-th block of memory allocated.  When `block_count`
wraps around the buffer is empty, and what the source then clears lies elsewhere. -/
def readBytes (lba : U64) (count : U32) (n : ℕ) (s : σ) : Option (List Byte) × σ :=
  let blockCount := (count + d.disk.blockSize - 1) / d.disk.blockSize
  let fullByteSize := d.disk.blockSize * blockCount
  let buffer := (List.range fullByteSize.toNat).map (d.garbage n)
  let (e, buffer, s) := d.partition.readBlock d.disk lba blockCount buffer s
  if e < 0 then (none, s)
  else (some (buffer.take count.toNat ++ List.replicate (fullByteSize.toNat - count.toNat) 0), s)

/-- `location_to_block`, which shifts a 1 where it should shift the location. -/
def locationToBlock (_ : U64) (logBlockSize : U32) : U32 :=
  (1#32 >>> logBlockSize.toNat) >>> 10

/-- `block_to_lba`. -/
def blockToLba (block : U64) (blockSize sectorSize : U32) : U64 :=
  block * (blockSize / sectorSize).setWidth 64

/-- `block_group_lba`. -/
def blockGroupLba (sb : SuperBlock) : U64 :=
  blockToLba ((locationToBlock 1024 sb.logBlockSize + 1).setWidth 64) sb.blockSize d.disk.blockSize

/-- `inode_table_block` for a group, as found in `_block_groups`. -/
def inodeTable (blockGroups : List Byte) (group : ℕ) : U32 :=
  match blockGroups.drop (4 * inodeTableWord group) with
  | b₀ :: b₁ :: b₂ :: b₃ :: _ => b₃ ++ b₂ ++ b₁ ++ b₀
  | _ => d.stray (inodeTableWord group)

/-- `block_number` in `read_inode`, for the inode with an index. -/
def inodeBlock (sb : SuperBlock) (blockGroups : List Byte) (index : U32) : U32 :=
  d.inodeTable blockGroups (index / sb.inodesPerGroup).toNat +
    index % sb.inodesPerGroup * sb.inodeSize / sb.blockSize

/-- `read_inode`, for an inode number that is not 0: the code, the inode's bytes if it is assigned,
and the state.  A failed read of the disk returns `e`, which is 1. -/
def readInode (sb : SuperBlock) (blockGroups : List Byte) (num : U32) (s : VolumeState σ) :
    Except Fault (ℤ × Option (List Byte) × VolumeState σ) :=
  if sb.inodesPerGroup = 0 then .error .division
  else if (num - 1) / sb.inodesPerGroup ≥ sb.blockGroupCount then .error .group
  else if h : sb.blockSize = 0 then .error .division
  else if sb.inodeSize = 0 ∨ sb.blockSize / sb.inodeSize = 0 then .error .division
  else
    let v := d.toVolume sb (sb.logBlockSize_le_of_blockSize_ne h)
    let val := v.mallocBlock s.mallocs
    let s := { s with mallocs := s.mallocs + 1 }
    let (e, val, s) := v.readBlock (d.inodeBlock sb blockGroups (num - 1)) val false s
    if e < 0 then .ok (1, none, s)
    else .ok (0, some ((val.drop (sb.inodeOffset (num - 1)).toNat).take 128), s)

/-- The constructor of `ext2_volume`. -/
def construct (sb : SuperBlock) (s : VolumeState σ) : Except Fault (Mount σ) :=
  if sb.incompatible then .ok ⟨sb, 5, [], none, s⟩
  else if sb.blocksPerGroup = 0 then .error .division
  else if sb.logBlockSize ≥ 32 then .error .shift
  else
    -- the size is a 64-bit product, and the parameter has 32 bits
    let count := sb.blockGroupCount * 32
    let (blockGroups, disk) := d.readBytes (d.blockGroupLba sb) count s.mallocs s.disk
    let s := { s with disk := disk, mallocs := s.mallocs + 1 }
    match blockGroups with
    | none => .ok ⟨sb, 1, [], none, s⟩
    | some blockGroups =>
      match d.readInode sb blockGroups 2 s with
      | .error fault => .error fault
      | .ok (e, root, s) =>
        if e < 0 then .ok ⟨sb, 1, blockGroups, root, s⟩
        else .ok ⟨sb, 0, blockGroups, root, s⟩

/-- `ext2_init`, on a disk in some state; `none` is `nullptr`. -/
def ext2Init (s : σ) : Except Fault (Option (Mount σ)) :=
  let sectorNo := 1024#32 / d.disk.blockSize
  let (buffer, s) := d.readBytes (sectorNo.setWidth 64) (1024 + 52) 0 s
  match buffer with
  | none => .ok none
  | some buffer =>
    let superblock := SuperBlock.ofBytes fun p ↦ buffer.getD p 0
    if superblock.accepted then
      match d.construct superblock ⟨s, LruCache.new 50 true, 1, []⟩ with
      | .error fault => .error fault
      | .ok mount => .ok (some mount)
    else .ok none

/-! ## What `read_inode` needs -/

variable {d} {sb : SuperBlock} {blockGroups : List Byte} {num : U32} {s : VolumeState σ}

/-- The numbers with which an inode's place can be computed: they can be divided by, and there is
the inode's group. -/
structure InodeAddressable (sb : SuperBlock) (num : U32) : Prop where
  inodesPerGroup_ne : sb.inodesPerGroup ≠ 0
  group_lt : (num - 1) / sb.inodesPerGroup < sb.blockGroupCount
  logBlockSize_le : sb.logBlockSize.toNat ≤ 21
  inodeSize_ne : sb.inodeSize ≠ 0
  inodeSize_le : sb.inodeSize ≤ sb.blockSize

/-- **What `read_inode` needs**: such numbers, and a block on the volume that the partition lets
through and the disk serves. -/
structure InodeReadable (d : Ext2Device σ) (sb : SuperBlock) (blockGroups : List Byte) (num : U32)
    (disk : σ) : Prop extends InodeAddressable sb num where
  block_le : d.inodeBlock sb blockGroups (num - 1) ≤ sb.blockCount
  passes : (d.toVolume sb logBlockSize_le).passes (d.inodeBlock sb blockGroups (num - 1))
  serves : (d.toVolume sb logBlockSize_le).serves (d.inodeBlock sb blockGroups (num - 1)) disk

theorem udiv_eq_zero_iff {x y : U32} : x / y = 0 ↔ y = 0 ∨ x < y := by
  rw [← BitVec.toNat_inj, BitVec.toNat_udiv]
  change x.toNat / y.toNat = 0 ↔ _
  rw [Nat.div_eq_zero_iff, ← BitVec.toNat_inj]
  rfl

/-- The block that `read_inode` reads, into memory it allocates. -/
def readInodeBlock (d : Ext2Device σ) (sb : SuperBlock) (h : sb.logBlockSize.toNat ≤ 21)
    (blockGroups : List Byte) (num : U32) (s : VolumeState σ) : ℤ × List Byte × VolumeState σ :=
  let v := d.toVolume sb h
  v.readBlock (d.inodeBlock sb blockGroups (num - 1)) (v.mallocBlock s.mallocs) false
    { s with mallocs := s.mallocs + 1 }

/-- **`read_inode`, when it does not fault.** -/
theorem InodeAddressable.readInode_eq (h : InodeAddressable sb num) :
    let r := d.readInodeBlock sb h.logBlockSize_le blockGroups num s
    d.readInode sb blockGroups num s =
      .ok (if r.1 < 0 then (1, none, r.2.2)
        else (0, some ((r.2.1.drop (sb.inodeOffset (num - 1)).toNat).take 128), r.2.2)) := by
  have hsize : ¬ (sb.inodeSize = 0 ∨ sb.blockSize / sb.inodeSize = 0) := by
    rw [udiv_eq_zero_iff]
    rintro (h0 | h0 | hlt)
    · exact h.inodeSize_ne h0
    · exact h.inodeSize_ne h0
    · exact absurd h.inodeSize_le (BitVec.not_le.mpr hlt)
  rw [readInode, if_neg h.inodesPerGroup_ne, if_neg (BitVec.not_le.mpr h.group_lt),
    dif_neg (sb.blockSize_ne_iff.mpr h.logBlockSize_le), if_neg hsize]
  dsimp only [readInodeBlock]
  split <;> rfl

/-- And it faults otherwise. -/
theorem inodeAddressable_of_readInode {r : ℤ × Option (List Byte) × VolumeState σ}
    (h : d.readInode sb blockGroups num s = .ok r) : InodeAddressable sb num := by
  rw [readInode] at h
  split at h
  · cases h
  next hipg =>
  split at h
  · cases h
  next hgroup =>
  split at h
  · cases h
  next hbs =>
  split at h
  · cases h
  next hsize =>
  rw [udiv_eq_zero_iff] at hsize
  exact ⟨hipg, BitVec.not_le.mp hgroup, sb.logBlockSize_le_of_blockSize_ne hbs,
    fun h0 ↦ hsize (.inl h0), BitVec.not_lt.mp fun hlt ↦ hsize (.inr (.inr hlt))⟩

/-- The code is never negative, so that the constructor takes every call for a success. -/
theorem readInode_nonneg {r : ℤ × Option (List Byte) × VolumeState σ}
    (h : d.readInode sb blockGroups num s = .ok r) : 0 ≤ r.1 := by
  rw [(inodeAddressable_of_readInode h).readInode_eq] at h
  rw [← Except.ok.inj h]
  split
  · exact Int.one_nonneg
  · exact le_rfl

/-- An inode that is assigned is from a block of the volume. -/
theorem block_le_of_readInode {e : ℤ} {val : List Byte} {t : VolumeState σ}
    (h : d.readInode sb blockGroups num s = .ok (e, some val, t)) :
    d.inodeBlock sb blockGroups (num - 1) ≤ sb.blockCount := by
  have haddr := inodeAddressable_of_readInode h
  by_contra hgt
  have hneg : (d.readInodeBlock sb haddr.logBlockSize_le blockGroups num s).1 < 0 :=
    Ext2Volume.readBlock_of_gt (v := d.toVolume sb haddr.logBlockSize_le)
      (BitVec.not_le.mp hgt) _ _
  rw [haddr.readInode_eq, if_pos hneg] at h
  cases h

/-- Without the cache, what can be fetched is what is there and is served. -/
theorem fetchable_false_iff {v : Ext2Volume σ} {b : U32} :
    v.fetchable s b false = true ↔ b ≤ v.blockCount ∧ v.passes b ∧ v.serves b s.disk := by
  rw [Ext2Volume.fetchable, Bool.and_eq_true, decide_eq_true_eq, if_neg (by decide)]
  dsimp only
  rw [Bool.and_eq_true, Bool.not_eq_true']
  rfl

/-- **With all it needs, `read_inode` reads** the 128 bytes at the inode's place in its block. -/
theorem InodeReadable.readInode (h : d.InodeReadable sb blockGroups num s.disk) :
    ∃ t, d.readInode sb blockGroups num s = .ok (0,
      some ((((d.toVolume sb h.logBlockSize_le).blockBytes
        (d.inodeBlock sb blockGroups (num - 1))).drop (sb.inodeOffset (num - 1)).toNat).take 128),
      t) ∧ t.log = s.log ++ [true] := by
  set v := d.toVolume sb h.logBlockSize_le
  have hfetch : v.fetchable { s with mallocs := s.mallocs + 1 }
      (d.inodeBlock sb blockGroups (num - 1)) false = true :=
    fetchable_false_iff.mpr ⟨h.block_le, h.passes, h.serves⟩
  obtain ⟨hcode, hbytes⟩ : 0 ≤ (d.readInodeBlock sb h.logBlockSize_le blockGroups num s).1 ∧
      (d.readInodeBlock sb h.logBlockSize_le blockGroups num s).2.1 =
        v.blockBytes (d.inodeBlock sb blockGroups (num - 1)) :=
    v.readBlock_fetchable hfetch (v.length_mallocBlock s.mallocs)
  have hlog := v.log_readBlock (d.inodeBlock sb blockGroups (num - 1)) (v.mallocBlock s.mallocs)
    false { s with mallocs := s.mallocs + 1 }
  rw [hfetch] at hlog
  refine ⟨_, ?_, hlog⟩
  rw [h.readInode_eq, if_neg (not_lt.mpr hcode), hbytes]
  rfl

/-- And if it can fetch the block it had all it needs. -/
theorem inodeReadable_of_readInode {e : ℤ} {val : Option (List Byte)} {t : VolumeState σ}
    (h : d.readInode sb blockGroups num s = .ok (e, val, t)) (hlog : t.log = s.log ++ [true]) :
    d.InodeReadable sb blockGroups num s.disk := by
  have haddr := inodeAddressable_of_readInode h
  set v := d.toVolume sb haddr.logBlockSize_le
  have hread := v.log_readBlock (d.inodeBlock sb blockGroups (num - 1))
    (v.mallocBlock s.mallocs) false { s with mallocs := s.mallocs + 1 }
  have ht : t = (d.readInodeBlock sb haddr.logBlockSize_le blockGroups num s).2.2 := by
    rw [haddr.readInode_eq] at h
    split at h
    all_goals
      cases h
      rfl
  rw [ht] at hlog
  have hfetch : v.fetchable { s with mallocs := s.mallocs + 1 }
      (d.inodeBlock sb blockGroups (num - 1)) false = true :=
    List.singleton_inj.mp (List.append_cancel_left (hread.symm.trans hlog))
  obtain ⟨hle, hpass, hserves⟩ := fetchable_false_iff.mp hfetch
  exact ⟨haddr, hle, hpass, hserves⟩

/-! ## Sound mounts -/

/-- `read_bytes` for the group descriptors. -/
def loadGroups (d : Ext2Device σ) (sb : SuperBlock) (s : VolumeState σ) : Option (List Byte) × σ :=
  d.readBytes (d.blockGroupLba sb) (sb.blockGroupCount * 32) s.mallocs s.disk

/-- The partition lets the request for the group descriptors through, and the disk serves it. -/
def GroupsServed (d : Ext2Device σ) (sb : SuperBlock) (disk : σ) : Prop :=
  let blockCount := (sb.blockGroupCount * 32 + d.disk.blockSize - 1) / d.disk.blockSize
  d.partition.outOfRange d.disk.blockSize (d.blockGroupLba sb) blockCount = false ∧
    d.media.served (d.blockGroupLba sb + d.partition.startLba) blockCount disk = true

/-- **The constructor comes to an end without a fault**, and has set the error or has got the group
descriptors and the block with the root's inode from the disk. -/
def MountsSoundly (d : Ext2Device σ) (sb : SuperBlock) (s : VolumeState σ) : Prop :=
  ∃ m, d.construct sb s = .ok m ∧
    (m.error ≠ 0 ∨ (d.GroupsServed sb s.disk ∧ m.root.isSome ∧ m.state.log = s.log ++ [true]))

end Ext2Device

/-- A disk image, all of it one partition. -/
def DiskImage.toDevice (image : DiskImage) : Ext2Device Unit where
  disk := image.toDisk
  media := image.toMedia
  partition := ⟨0, 2 ^ 54⟩
  errno := .library
  garbage _ _ := 0xaa
  stray _ := 0
  sector_eq := image.blockSize_toDisk

end Borrrdex
