import Borrrdex.Fs.Ext2Mount

/-!
# Finding the inodes

An ext2 image keeps its inodes in one table for each block group, and the tables' places in the
group descriptors, which begin with the block behind the superblock's.  `inodeBytes` is what an
image has under an inode number, `Image.WellFormed` what makes it an ext2 image.

`read_inode` computes the place by other formulas and in 32 bits, and the constructor looks for the
descriptors in block 1 of every volume, which is the superblock's own where blocks are of a
kilobyte. `readsInodes_iff` says on which volumes they agree.
-/

set_option autoImplicit false

namespace Borrrdex

open Splice

variable {σ : Type}

/-! ## What an image means -/

namespace Image

variable (image : ℕ → Byte)

/-- The superblock, behind the first 1024 bytes. -/
def superBlock : SuperBlock := SuperBlock.ofBytes fun p ↦ image (1024 + p)

end Image

namespace SuperBlock

variable (sb : SuperBlock)

/-- `first_data_block`: the superblock's block. -/
def firstDataBlock : ℕ := if sb.logBlockSize = 0 then 1 else 0

/-- The number of block groups. -/
def groups : ℕ :=
  (sb.blockCount.toNat - sb.firstDataBlock + sb.blocksPerGroup.toNat - 1) / sb.blocksPerGroup.toNat

/-- Where the group descriptors begin. -/
def descriptors : ℕ := (sb.firstDataBlock + 1) * sb.blockSize.toNat

/-- The size with which the constructor asks for the group descriptors. -/
def groupBytes : ℕ := (sb.blockGroupCount * 32).toNat

/-- The group of an inode. -/
def groupOf (n : U32) : ℕ := (n.toNat - 1) / sb.inodesPerGroup.toNat

/-- Where the inode is in its group's table. -/
def inodePos (n : U32) : ℕ := (n.toNat - 1) % sb.inodesPerGroup.toNat * sb.inodeSize.toNat

/-- The inode numbers. -/
def HasInode (n : U32) : Prop := 1 ≤ n.toNat ∧ n.toNat ≤ sb.inodeCount.toNat

end SuperBlock

namespace Image

variable (image : ℕ → Byte)

/-- `bg_inode_table` of a group. -/
def inodeTable (group : ℕ) : U32 := le32 image ((superBlock image).descriptors + 32 * group + 8)

/-- Where an inode is. -/
def inodeByte (n : U32) : ℕ :=
  let sb := superBlock image
  (inodeTable image (sb.groupOf n)).toNat * sb.blockSize.toNat + sb.inodePos n

/-- **The inode structure on the disk.** -/
def inodeBytes (n : U32) : List Byte :=
  (List.range 128).map fun i ↦ image (inodeByte image n + i)

/-- An ext2 image: a superblock that the driver knows, numbers that fit together, and all inodes
behind the group descriptors and inside the volume. -/
structure WellFormed : Prop where
  accepted : (superBlock image).accepted = true
  compatible : (superBlock image).incompatible = false
  logBlockSize_le : (superBlock image).logBlockSize.toNat ≤ 21
  inodeSize_ge : 128 ≤ (superBlock image).inodeSize.toNat
  inodeSize_dvd : (superBlock image).inodeSize.toNat ∣ (superBlock image).blockSize.toNat
  blocksPerGroup_pos : 0 < (superBlock image).blocksPerGroup.toNat
  inodesPerGroup_pos : 0 < (superBlock image).inodesPerGroup.toNat
  table_lt : (superBlock image).inodesPerGroup.toNat * (superBlock image).inodeSize.toNat < 2 ^ 32
  inodeCount_ge : 2 ≤ (superBlock image).inodeCount.toNat
  inodeCount_le : (superBlock image).inodeCount.toNat ≤
    (superBlock image).groups * (superBlock image).inodesPerGroup.toNat
  behind : ∀ n, (superBlock image).HasInode n →
    (superBlock image).descriptors + 32 * (superBlock image).groups ≤ inodeByte image n
  inside : ∀ n, (superBlock image).HasInode n →
    inodeByte image n + 128 ≤ (superBlock image).blockCount.toNat *
      (superBlock image).blockSize.toNat

/-- The sectors of the volume. -/
def sectors : ℕ :=
  (superBlock image).blockCount.toNat * ((superBlock image).blockSize.toNat / 512)

/-- **The volumes whose inodes are found**: blocks of two kilobytes or more, a sum from which the
number of groups is computed that has 32 bits, as has the size of the descriptors, which are loaded
up to the last that is needed, and the number of every sector with an inode. -/
structure Addressed : Prop where
  logBlockSize_pos : 0 < (superBlock image).logBlockSize.toNat
  groups_lt : (superBlock image).blockCount.toNat + (superBlock image).blocksPerGroup.toNat ≤ 2 ^ 32
  loaded : 32 * ((superBlock image).groupOf (superBlock image).inodeCount + 1) ≤
    32 * (superBlock image).groups % 2 ^ 32
  loaded_lt : 32 * (superBlock image).groups % 2 ^ 32 + 511 < 2 ^ 32
  sector_lt : ∀ n, (superBlock image).HasInode n →
    inodeByte image n / (superBlock image).blockSize.toNat *
      ((superBlock image).blockSize.toNat / 512) < 2 ^ 32

/-- Two images that differ only in what is not the business of the geometry: the same superblock, as
far as it is used, and the same inode tables. -/
structure SameLayout (image image' : ℕ → Byte) : Prop where
  superBlock_eq : superBlock image' = superBlock image
  inodeTable_eq : ∀ group < (superBlock image).groups,
    inodeTable image' group = inodeTable image group

end Image

namespace Ext2Device

open Image

/-- **The partition holds an image**, and the disk serves all of it. -/
structure Holds (d : Ext2Device σ) (image : ℕ → Byte) : Prop where
  start_le : d.partition.startLba ≤ d.partition.endLba
  small : (d.partition.endLba.toNat - d.partition.startLba.toNat) * 512 < 2 ^ 64
  room : sectors image ≤ d.partition.endLba.toNat - d.partition.startLba.toNat + 1
  contents : ∀ lba count, lba.toNat + count.toNat ≤ sectors image →
    d.media.contents (lba + d.partition.startLba) count =
      (List.range (count.toNat * 512)).map fun i ↦ image (lba.toNat * 512 + i)
  served : ∀ lba count disk, lba.toNat + count.toNat ≤ sectors image →
    d.media.served (lba + d.partition.startLba) count disk = true

/-- **Mounting the volume and reading an inode** gives the inode on the disk, whatever is read
meanwhile. -/
def ReadsInode (d : Ext2Device σ) (image : ℕ → Byte) (n : U32) (disk : σ) : Prop :=
  ∃ m, d.ext2Init disk = .ok (some m) ∧ m.error = 0 ∧
    ∀ s, ∃ t, d.readInode m.sb m.blockGroups n s = .ok (0, some (inodeBytes image n), t)

variable {d : Ext2Device σ} {image : ℕ → Byte}

/-! ## Requests inside the volume -/

/-- A request inside the volume is let through, unless it is for a single sector at the end. -/
theorem Holds.passes (hd : d.Holds image) {lba : U64} {count : U32}
    (h : lba.toNat + count.toNat ≤ sectors image) (hcount : 2 ≤ count.toNat ∨
      lba.toNat + count.toNat < sectors image) :
    d.partition.outOfRange d.disk.blockSize lba count = false := by
  have hsmall := hd.small
  have hroom := hd.room
  rw [Partition.outOfRange_eq_false_iff hd.start_le, Partition.Passes, d.sector_eq,
    show (512 : U32).toNat = 512 from rfl, Nat.mod_eq_of_lt hsmall]
  refine (Nat.mod_le _ _).trans ?_
  omega

/-- What `read_bytes` makes of a request inside the volume. -/
theorem Holds.readBytes (hd : d.Holds image) (lba : U64) (count : U32)
    (h : lba.toNat + (count.toNat + 511) % 2 ^ 32 / 512 ≤ sectors image)
    (hcount : 2 ≤ (count.toNat + 511) % 2 ^ 32 / 512 ∨
      lba.toNat + (count.toNat + 511) % 2 ^ 32 / 512 < sectors image) (n : ℕ) (s : σ) :
    ∃ s', d.readBytes lba count n s =
      (some (((List.range ((count.toNat + 511) % 2 ^ 32 / 512 * 512)).map fun i ↦
          image (lba.toNat * 512 + i)).take count.toNat ++
        List.replicate ((count.toNat + 511) % 2 ^ 32 / 512 * 512 - count.toNat) 0), s') := by
  set blockCount := (count + d.disk.blockSize - 1) / d.disk.blockSize with hblockCount
  have hblocks : blockCount.toNat = (count.toNat + 511) % 2 ^ 32 / 512 := by
    rw [hblockCount, d.sector_eq, show count + 512 - 1 = count + 511 by bv_omega,
      BitVec.toNat_udiv, BitVec.toNat_add]
    rfl
  have hfull : (d.disk.blockSize * blockCount).toNat = blockCount.toNat * 512 := by
    rw [d.sector_eq, BitVec.toNat_mul, Nat.mul_comm, Nat.mod_eq_of_lt]
    · rfl
    · rw [hblocks, show (512 : U32).toNat = 512 from rfl]
      omega
  rw [← hblocks] at h hcount ⊢
  obtain ⟨code, s', hcode, hread⟩ := d.media.read_served (lba + d.partition.startLba) blockCount
    ((List.range (d.disk.blockSize * blockCount).toNat).map (d.garbage n)) s (hd.served _ _ _ h)
    (by rw [hblocks]; omega) (by
      rw [List.length_map, List.length_range, hfull, d.sector_eq]
      exact le_rfl)
  have hpartition : d.partition.readBlock d.disk lba blockCount
      ((List.range (d.disk.blockSize * blockCount).toNat).map (d.garbage n)) s =
      d.disk.readDiskBlock (lba + d.partition.startLba) blockCount
        ((List.range (d.disk.blockSize * blockCount).toNat).map (d.garbage n)) s := by
    rw [Partition.readBlock, Partition.guarded, hd.passes h hcount]
    exact if_neg (by decide)
  refine ⟨s', ?_⟩
  rw [Ext2Device.readBytes]
  dsimp only
  rw [← hblockCount, hpartition, hread]
  dsimp only
  rw [if_neg (not_lt.mpr hcode), hd.contents _ _ h, splice_zero_of_length, hfull]
  rw [List.length_map, List.length_range, List.length_map, List.length_range, hfull]

end Ext2Device

/-! ## The geometry of an image -/

namespace SuperBlock

variable {sb : SuperBlock}

theorem toNat_blockSize (h : sb.logBlockSize.toNat ≤ 21) :
    sb.blockSize.toNat = 2 ^ (10 + sb.logBlockSize.toNat) := by
  rw [blockSize, BitVec.toNat_shiftLeft, Nat.shiftLeft_eq, show (1024#32).toNat = 2 ^ 10 from rfl,
    ← pow_add, Nat.mod_eq_of_lt]
  exact Nat.pow_lt_pow_right (by decide) (by omega)

/-- A block is a whole number of sectors. -/
theorem sectors_mul (h : sb.logBlockSize.toNat ≤ 21) :
    sb.blockSize.toNat / 512 * 512 = sb.blockSize.toNat := by
  rw [toNat_blockSize h]
  exact Nat.div_mul_cancel (pow_dvd_pow 2 (by omega : 9 ≤ 10 + sb.logBlockSize.toNat))

theorem blockSize_ge (h : sb.logBlockSize.toNat ≤ 21) : 1024 ≤ sb.blockSize.toNat := by
  rw [toNat_blockSize h]
  exact Nat.pow_le_pow_right (by decide : 0 < 2) (by omega : 10 ≤ 10 + sb.logBlockSize.toNat)

theorem blockSize_le (h : sb.logBlockSize.toNat ≤ 21) : sb.blockSize.toNat ≤ 2 ^ 31 := by
  rw [toNat_blockSize h]
  exact Nat.pow_le_pow_right (by decide) (by omega)

theorem descriptors_ge (h : sb.logBlockSize.toNat ≤ 21) : 2048 ≤ sb.descriptors := by
  have hge := blockSize_ge h
  rw [descriptors, firstDataBlock]
  split
  · omega
  next hlog =>
  have hpos : 1 ≤ sb.logBlockSize.toNat := by
    rw [← BitVec.toNat_inj] at hlog
    exact Nat.pos_of_ne_zero hlog
  rw [Nat.zero_add, Nat.one_mul, toNat_blockSize h]
  exact Nat.pow_le_pow_right (by decide : 0 < 2) (by omega : 11 ≤ 10 + sb.logBlockSize.toNat)

theorem toNat_blockGroupCount (h : 0 < sb.blocksPerGroup.toNat) :
    sb.blockGroupCount.toNat =
      (sb.blockCount.toNat + sb.blocksPerGroup.toNat - 1) % 2 ^ 32 / sb.blocksPerGroup.toNat := by
  have hsum : (sb.blockCount + sb.blocksPerGroup - 1).toNat =
      (sb.blockCount.toNat + sb.blocksPerGroup.toNat - 1) % 2 ^ 32 := by
    bv_omega
  rw [blockGroupCount, BitVec.toNat_udiv, hsum]

/-- Where the code looks for descriptors, and as many as it looks for, all is before the inodes. -/
theorem groups_le (h : sb.logBlockSize.toNat ≤ 21) (hbpg : 0 < sb.blocksPerGroup.toNat) :
    sb.blockSize.toNat + 32 * sb.blockGroupCount.toNat ≤ sb.descriptors + 32 * sb.groups := by
  have hcount : sb.blockGroupCount.toNat ≤
      (sb.blockCount.toNat + sb.blocksPerGroup.toNat - 1) / sb.blocksPerGroup.toNat := by
    rw [toNat_blockGroupCount hbpg]
    exact Nat.div_le_div_right (Nat.mod_le _ _)
  have hge := blockSize_ge h
  rw [descriptors, groups, firstDataBlock]
  split
  · have hsucc : (sb.blockCount.toNat + sb.blocksPerGroup.toNat - 1) / sb.blocksPerGroup.toNat ≤
        (sb.blockCount.toNat - 1 + sb.blocksPerGroup.toNat - 1) / sb.blocksPerGroup.toNat + 1 := by
      rw [← Nat.add_div_right _ hbpg]
      exact Nat.div_le_div_right (by omega)
    omega
  · rw [Nat.sub_zero]
    omega

/-- The bytes of a superblock that are used; `r_block_count` is not. -/
theorem ofBytes_congr {f g : ℕ → Byte} (h : ∀ p < 104, p < 8 ∨ 12 ≤ p → f p = g p) :
    ofBytes f = ofBytes g := by
  have h32 : ∀ p ≤ 100, p ≤ 4 ∨ 12 ≤ p → le32 f p = le32 g p := fun p hp hne ↦ by
    rw [le32, le32, h (p + 3) (by omega) (by omega), h (p + 2) (by omega) (by omega),
      h (p + 1) (by omega) (by omega), h p (by omega) (by omega)]
  have h16 : ∀ p ≤ 100, 12 ≤ p → le16 f p = le16 g p := fun p hp hle ↦ by
    rw [le16, le16, h (p + 1) (by omega) (by omega), h p (by omega) (by omega)]
  rw [ofBytes, ofBytes, h32 0 (by decide) (by decide), h32 4 (by decide) (by decide),
    h32 24 (by decide) (by decide), h32 32 (by decide) (by decide),
    h32 40 (by decide) (by decide), h16 56 (by decide) (by decide),
    h32 76 (by decide) (by decide), h16 88 (by decide) (by decide),
    h32 96 (by decide) (by decide), h32 100 (by decide) (by decide)]

end SuperBlock

namespace Image

variable {image : ℕ → Byte}

/-- There is an inode 1, at the beginning of the first table. -/
theorem WellFormed.hasInode_one (h : WellFormed image) : (superBlock image).HasInode 1 :=
  ⟨le_rfl, Nat.le_of_succ_le h.inodeCount_ge⟩

theorem inodeByte_one (image : ℕ → Byte) :
    inodeByte image 1 = (inodeTable image 0).toNat * (superBlock image).blockSize.toNat := by
  rw [inodeByte, SuperBlock.groupOf, SuperBlock.inodePos, show (1 : U32).toNat - 1 = 0 from rfl,
    Nat.zero_div, Nat.zero_mod, Nat.zero_mul, Nat.add_zero]

theorem WellFormed.groups_pos (h : WellFormed image) : 0 < (superBlock image).groups := by
  have hge := h.inodeCount_ge
  have hle := h.inodeCount_le
  by_contra hzero
  rw [Nat.eq_zero_of_not_pos hzero, Nat.zero_mul] at hle
  omega

/-- The requests of the constructor are inside the volume. -/
theorem WellFormed.sectors_ge (h : WellFormed image) : 5 ≤ sectors image ∧
    (superBlock image).blockSize.toNat / 512 +
      (32 * (superBlock image).blockGroupCount.toNat + 511) / 512 < sectors image := by
  have hbehind := h.behind 1 h.hasInode_one
  have hinside := h.inside 1 h.hasInode_one
  have hgroups := SuperBlock.groups_le h.logBlockSize_le h.blocksPerGroup_pos
  have hdesc := SuperBlock.descriptors_ge h.logBlockSize_le
  have hpos := h.groups_pos
  have hmul := SuperBlock.sectors_mul h.logBlockSize_le
  have hge := SuperBlock.blockSize_ge h.logBlockSize_le
  rw [inodeByte_one] at hbehind hinside
  rw [sectors]
  set table := (inodeTable image 0).toNat
  set blocks := (superBlock image).blockCount.toNat
  have hlt : table < blocks := by
    by_contra hle
    have := Nat.mul_le_mul_right (superBlock image).blockSize.toNat (not_lt.mp hle)
    omega
  have hsectors := Nat.mul_le_mul_right ((superBlock image).blockSize.toNat / 512)
    (Nat.succ_le_of_lt hlt)
  rw [Nat.succ_mul] at hsectors
  have htable : table * ((superBlock image).blockSize.toNat / 512) * 512 =
      table * (superBlock image).blockSize.toNat := by
    rw [Nat.mul_assoc, hmul]
  constructor <;> omega

end Image

namespace Ext2Device

open Image

variable {d : Ext2Device σ} {image : ℕ → Byte}

/-! ## What the constructor loads -/

/-- `_block_groups`, on a volume that holds an image. -/
def groupTable (image : ℕ → Byte) : List Byte :=
  let count := (superBlock image).groupBytes
  ((List.range ((count + 511) % 2 ^ 32 / 512 * 512)).map fun i ↦
      image ((superBlock image).blockSize.toNat + i)).take count ++
    List.replicate ((count + 511) % 2 ^ 32 / 512 * 512 - count) 0

/-- The descriptors are always looked for in block 1. -/
theorem toNat_blockGroupLba (d : Ext2Device σ) (sb : SuperBlock) :
    (d.blockGroupLba sb).toNat = sb.blockSize.toNat / 512 := by
  have hzero : locationToBlock 1024 sb.logBlockSize = 0 := by
    rw [← BitVec.toNat_inj, locationToBlock, BitVec.toNat_ushiftRight, BitVec.toNat_ushiftRight,
      Nat.shiftRight_eq_div_pow, Nat.shiftRight_eq_div_pow]
    refine Nat.div_eq_of_lt ?_
    exact (Nat.div_le_self _ _).trans_lt (by decide)
  rw [blockGroupLba, blockToLba, hzero, d.sector_eq,
    show ((0 : U32) + 1).setWidth 64 = 1#64 from rfl,
    BitVec.one_mul, BitVec.toNat_setWidth_of_le (by decide), BitVec.toNat_udiv]
  rfl

theorem Holds.loadGroups (hd : d.Holds image) (h : WellFormed image) (s : VolumeState σ) :
    ∃ disk, d.loadGroups (superBlock image) s = (some (groupTable image), disk) := by
  have hsectors := h.sectors_ge.2
  have hlba := d.toNat_blockGroupLba (superBlock image)
  set count := (superBlock image).blockGroupCount * 32 with hcount
  have hle : (count.toNat + 511) % 2 ^ 32 / 512 ≤
      (32 * (superBlock image).blockGroupCount.toNat + 511) / 512 := by
    refine Nat.div_le_div_right ((Nat.mod_le _ _).trans ?_)
    rw [hcount, BitVec.toNat_mul, Nat.mul_comm]
    exact Nat.add_le_add_right (Nat.mod_le _ _) _
  obtain ⟨disk, hread⟩ := hd.readBytes (d.blockGroupLba (superBlock image)) count (by omega)
    (.inr (by omega)) s.mallocs s.disk
  refine ⟨disk, ?_⟩
  rw [Ext2Device.loadGroups, ← hcount, hread, hlba, SuperBlock.sectors_mul h.logBlockSize_le]
  rfl

/-- The constructor, on a volume that holds an image. -/
theorem Holds.construct (hd : d.Holds image) (h : WellFormed image) (s : VolumeState σ) :
    ∃ s', d.construct (superBlock image) s =
      (d.readInode (superBlock image) (groupTable image) 2 s').map fun r ↦
        ⟨superBlock image, 0, groupTable image, r.2.1, r.2.2⟩ := by
  obtain ⟨disk, hload⟩ := hd.loadGroups h s
  have hbpg : (superBlock image).blocksPerGroup ≠ 0 := by
    have := h.blocksPerGroup_pos
    bv_omega
  have hshift : ¬ (superBlock image).logBlockSize ≥ 32 := by
    have := h.logBlockSize_le
    bv_omega
  refine ⟨{ s with disk := disk, mallocs := s.mallocs + 1 }, ?_⟩
  unfold Ext2Device.loadGroups at hload
  rw [Ext2Device.construct, h.compatible, if_neg (by decide), if_neg hbpg, if_neg hshift]
  dsimp only
  rw [hload]
  dsimp only
  cases hread : d.readInode (superBlock image) (groupTable image) 2
    { s with disk := disk, mallocs := s.mallocs + 1 } with
  | error fault => rfl
  | ok r =>
    obtain ⟨e, root, t⟩ := r
    dsimp only
    rw [if_neg (not_lt.mpr (readInode_nonneg hread))]
    rfl

/-- `ext2_init` finds the superblock. -/
theorem Holds.ext2Init (hd : d.Holds image) (h : WellFormed image) (disk : σ) :
    ∃ s, d.ext2Init disk = (d.construct (superBlock image) s).map some := by
  obtain ⟨disk', hread⟩ := hd.readBytes 2 (1024 + 52)
    (show 2 + (1076 + 511) % 2 ^ 32 / 512 ≤ _ from h.sectors_ge.1) (.inl (by decide)) 0 disk
  set buffer := ((List.range 1536).map fun i ↦ image (1024 + i)).take 1076 ++
    List.replicate 460 0 with hbuffer
  have hread : d.readBytes 2 (1024 + 52) 0 disk = (some buffer, disk') := hread
  have hsb : SuperBlock.ofBytes (fun p ↦ buffer.getD p 0) = superBlock image := by
    refine SuperBlock.ofBytes_congr fun p hp _ ↦ ?_
    rw [hbuffer, List.getD_eq_getElem?_getD, List.getElem?_append_left (by simp; omega),
      List.getElem?_take_of_lt (by omega), List.getElem?_map, List.getElem?_range (by omega)]
    rfl
  refine ⟨⟨disk', LruCache.new 50 true, 1, []⟩, ?_⟩
  have hlba : (1024#32 / d.disk.blockSize).setWidth 64 = 2 := by
    rw [d.sector_eq]
    rfl
  rw [Ext2Device.ext2Init]
  dsimp only
  rw [hlba, hread]
  dsimp only
  rw [hsb, h.accepted, if_pos rfl]
  cases d.construct (superBlock image) ⟨disk', LruCache.new 50 true, 1, []⟩ with
  | error fault => rfl
  | ok m => rfl

/-- **Mounting and reading**, without the mount. -/
theorem Holds.readsInode_iff (hd : d.Holds image) (h : WellFormed image) (n : U32) (disk : σ) :
    d.ReadsInode image n disk ↔ InodeAddressable (superBlock image) 2 ∧
      ∀ s, ∃ t, d.readInode (superBlock image) (groupTable image) n s =
        .ok (0, some (inodeBytes image n), t) := by
  obtain ⟨s, hinit⟩ := hd.ext2Init h disk
  obtain ⟨s', hconstruct⟩ := hd.construct h s
  rw [ReadsInode, hinit, hconstruct]
  constructor
  · rintro ⟨m, hm, -, hread⟩
    cases hroot : d.readInode (superBlock image) (groupTable image) 2 s' with
    | error fault =>
      rw [hroot] at hm
      cases hm
    | ok r =>
      rw [hroot] at hm
      cases hm
      exact ⟨inodeAddressable_of_readInode hroot, hread⟩
  · rintro ⟨haddr, hread⟩
    rw [haddr.readInode_eq]
    exact ⟨_, rfl, rfl, hread⟩

/-! ## Where `read_inode` reads -/

theorem getElem?_groupTable {p : ℕ} (hp : p < (superBlock image).groupBytes)
    (hlt : (superBlock image).groupBytes + 511 < 2 ^ 32) :
    (groupTable image)[p]? = some (image ((superBlock image).blockSize.toNat + p)) := by
  rw [groupTable, Nat.mod_eq_of_lt hlt]
  rw [List.getElem?_append_left (by simp; omega), List.getElem?_take_of_lt hp, List.getElem?_map,
    List.getElem?_range (by omega)]
  rfl

/-- A descriptor that is loaded. -/
theorem inodeTable_groupTable (d : Ext2Device σ) {image : ℕ → Byte} {g : ℕ}
    (hg : 32 * (g + 1) ≤ (superBlock image).groupBytes)
    (hlt : (superBlock image).groupBytes + 511 < 2 ^ 32) :
    d.inodeTable (groupTable image) g =
      le32 image ((superBlock image).blockSize.toNat + 32 * g + 8) := by
  have hdrop := drop_four (l := groupTable image) (p := 4 * inodeTableWord g)
    (f := fun j ↦ image ((superBlock image).blockSize.toNat + (4 * inodeTableWord g + j)))
    fun j hj ↦ getElem?_groupTable (by rw [inodeTableWord]; omega) hlt
  rw [inodeTable, hdrop, le32, inodeTableWord, show 4 * (8 * g + 2) = 32 * g + 8 by omega]
  simp only [Nat.add_assoc, Nat.add_zero]

/-- A descriptor that is not loaded, with nothing but zeros behind the table. -/
theorem inodeTable_eq_zero (d : Ext2Device σ) (hstray : ∀ i, d.stray i = 0) {g : ℕ}
    (h : ¬ (32 * (g + 1) ≤ (superBlock image).groupBytes ∧
      (superBlock image).groupBytes + 511 < 2 ^ 32)) :
    d.inodeTable (groupTable image) g = 0 := by
  have hmod : 32 ∣ (superBlock image).groupBytes := by
    rw [SuperBlock.groupBytes, BitVec.toNat_mul]
    exact (Nat.dvd_mod_iff (by decide)).mpr (Nat.dvd_mul_left _ _)
  have hdrop : ∃ k, (groupTable image).drop (4 * inodeTableWord g) = List.replicate k 0 := by
    rw [groupTable, inodeTableWord]
    rw [List.drop_append, List.drop_eq_nil_of_le, List.nil_append, List.drop_replicate]
    · exact ⟨_, rfl⟩
    · rw [List.length_take, List.length_map, List.length_range]
      obtain ⟨m, hm⟩ := hmod
      have := ((superBlock image).blockGroupCount * 32).isLt
      rw [← SuperBlock.groupBytes] at this
      omega
  obtain ⟨k, hdrop⟩ := hdrop
  rw [inodeTable, hdrop]
  rcases Nat.lt_or_ge k 4 with hk | hk
  · interval_cases k <;> exact hstray _
  · obtain ⟨j, rfl⟩ := Nat.exists_eq_add_of_le' hk
    rfl

end Ext2Device

namespace Image

variable {image : ℕ → Byte} {n : U32}

/-- The place of an inode, by block and by offset. -/
theorem WellFormed.inodeByte_div (h : WellFormed image) (n : U32) :
    inodeByte image n / (superBlock image).blockSize.toNat =
        (inodeTable image ((superBlock image).groupOf n)).toNat +
          (superBlock image).inodePos n / (superBlock image).blockSize.toNat ∧
      inodeByte image n % (superBlock image).blockSize.toNat =
        (superBlock image).inodePos n % (superBlock image).blockSize.toNat := by
  have hge := SuperBlock.blockSize_ge h.logBlockSize_le
  rw [inodeByte, Nat.add_comm, Nat.add_mul_div_right _ _ (by omega), Nat.add_mul_mod_self_right]
  exact ⟨Nat.add_comm _ _, rfl⟩

theorem WellFormed.inodePos_lt (h : WellFormed image) (n : U32) :
    (superBlock image).inodePos n < 2 ^ 32 := by
  refine lt_of_le_of_lt ?_ h.table_lt
  exact Nat.mul_le_mul_right _ (Nat.mod_lt _ h.inodesPerGroup_pos).le

/-- An inode lies in one block, which is on the volume. -/
theorem WellFormed.inodeByte_inside (h : WellFormed image) (hn : (superBlock image).HasInode n) :
    inodeByte image n / (superBlock image).blockSize.toNat < (superBlock image).blockCount.toNat ∧
      inodeByte image n % (superBlock image).blockSize.toNat + 128 ≤
        (superBlock image).blockSize.toNat := by
  have hge := SuperBlock.blockSize_ge h.logBlockSize_le
  have hinside := h.inside n hn
  constructor
  · rw [Nat.div_lt_iff_lt_mul (by omega)]
    omega
  · obtain ⟨m, hm⟩ := h.inodeSize_dvd
    have hpos : 0 < m := by
      by_contra hzero
      rw [Nat.eq_zero_of_not_pos hzero] at hm
      omega
    rw [(h.inodeByte_div n).2, SuperBlock.inodePos, hm, Nat.mul_comm _ m, Nat.mul_mod_mul_right]
    have hlt := Nat.mod_lt ((n.toNat - 1) % (superBlock image).inodesPerGroup.toNat) hpos
    have hmul := Nat.mul_le_mul_right (superBlock image).inodeSize.toNat (Nat.succ_le_of_lt hlt)
    rw [Nat.succ_mul] at hmul
    have hsize := h.inodeSize_ge
    omega

end Image

namespace Ext2Device

open Image

variable {d : Ext2Device σ} {image : ℕ → Byte} {n : U32}

/-- `inode_block_offset`, as a number of bytes. -/
theorem toNat_inodeOffset (h : WellFormed image) (hn : (superBlock image).HasInode n) :
    ((superBlock image).inodeOffset (n - 1)).toNat =
      inodeByte image n % (superBlock image).blockSize.toNat := by
  have hindex : (n - 1).toNat = n.toNat - 1 := BitVec.toNat_sub_of_le hn.1
  have hlt := (h.inodeByte_inside hn).2
  have hbs := (superBlock image).blockSize.isLt
  obtain ⟨m, hm⟩ := h.inodeSize_dvd
  have hsize := h.inodeSize_ge
  have hdiv : ((superBlock image).blockSize / (superBlock image).inodeSize).toNat = m := by
    rw [BitVec.toNat_udiv, hm, Nat.mul_div_cancel_left _ (by omega)]
  have hmod : (superBlock image).inodeSize.toNat *
      ((n.toNat - 1) % (superBlock image).inodesPerGroup.toNat % m) =
        inodeByte image n % (superBlock image).blockSize.toNat := by
    rw [(h.inodeByte_div n).2, SuperBlock.inodePos, hm, Nat.mul_comm _ m, Nat.mul_mod_mul_right,
      Nat.mul_comm]
  rw [SuperBlock.inodeOffset, BitVec.toNat_mul, BitVec.toNat_umod, BitVec.toNat_umod, hdiv, hindex,
    hmod, Nat.mod_eq_of_lt (by omega)]

/-- `block_number`. -/
theorem toNat_inodeBlock (h : WellFormed image) (hn : (superBlock image).HasInode n) :
    (d.inodeBlock (superBlock image) (groupTable image) (n - 1)).toNat =
      ((d.inodeTable (groupTable image) ((superBlock image).groupOf n)).toNat +
        (superBlock image).inodePos n / (superBlock image).blockSize.toNat) % 2 ^ 32 := by
  have hindex : (n - 1).toNat = n.toNat - 1 := BitVec.toNat_sub_of_le hn.1
  have hgroup : ((n - 1) / (superBlock image).inodesPerGroup).toNat =
      (superBlock image).groupOf n := by
    rw [BitVec.toNat_udiv, hindex, SuperBlock.groupOf]
  have hblock : ((n - 1) % (superBlock image).inodesPerGroup * (superBlock image).inodeSize /
      (superBlock image).blockSize).toNat =
        (superBlock image).inodePos n / (superBlock image).blockSize.toNat := by
    rw [BitVec.toNat_udiv, BitVec.toNat_mul, BitVec.toNat_umod, hindex]
    rw [show _ * _ = (superBlock image).inodePos n from rfl, Nat.mod_eq_of_lt (h.inodePos_lt n)]
  rw [inodeBlock, BitVec.toNat_add, hgroup, hblock]

/-- It is the inode's block, when the descriptor is the group's. -/
theorem toNat_inodeBlock_of_eq (h : WellFormed image) (hn : (superBlock image).HasInode n)
    (hword : d.inodeTable (groupTable image) ((superBlock image).groupOf n) =
      Image.inodeTable image ((superBlock image).groupOf n)) :
    (d.inodeBlock (superBlock image) (groupTable image) (n - 1)).toNat =
      inodeByte image n / (superBlock image).blockSize.toNat := by
  have hlt := (h.inodeByte_inside hn).1
  have hblocks := (superBlock image).blockCount.isLt
  rw [(h.inodeByte_div n).1] at hlt ⊢
  rw [toNat_inodeBlock h hn, hword, Nat.mod_eq_of_lt (by omega)]

/-! ## Volumes on which it reads the inodes -/

/-- The blocks of a volume whose first sector's number has 32 bits. -/
theorem Holds.block (hd : d.Holds image) (h : WellFormed image) {b : U32}
    (hb : b.toNat < (superBlock image).blockCount.toNat)
    (hlt : b.toNat * ((superBlock image).blockSize.toNat / 512) < 2 ^ 32) :
    let v := d.toVolume (superBlock image) h.logBlockSize_le
    v.passes b ∧ (∀ disk, v.serves b disk) ∧ v.blockBytes b =
      (List.range (superBlock image).blockSize.toNat).map fun i ↦
        image (b.toNat * (superBlock image).blockSize.toNat + i) := by
  intro v
  have hge := SuperBlock.blockSize_ge h.logBlockSize_le
  have hmul := SuperBlock.sectors_mul h.logBlockSize_le
  have hcount : v.sectorsPerBlock.toNat = (superBlock image).blockSize.toNat / 512 := by
    rw [Ext2Volume.sectorsPerBlock, v.sector_eq, BitVec.toNat_udiv]
    rfl
  have hlba : (v.blockLba b).toNat = b.toNat * v.sectorsPerBlock.toNat := by
    rw [Ext2Volume.blockLba, BitVec.toNat_setWidth_of_le (by decide), BitVec.toNat_mul,
      Nat.mod_eq_of_lt (hcount ▸ hlt)]
  have hinside : (v.blockLba b).toNat + v.sectorsPerBlock.toNat ≤ sectors image := by
    rw [hlba, hcount, sectors, ← Nat.succ_mul]
    exact Nat.mul_le_mul_right _ hb
  refine ⟨hd.passes hinside (.inl (by omega)), fun disk ↦ hd.served _ _ disk hinside, ?_⟩
  rw [Ext2Volume.blockBytes, show v.media = d.media from rfl,
    show v.partition = d.partition from rfl, hd.contents _ _ hinside, hlba, hcount, hmul,
    Nat.mul_assoc, hmul]

theorem firstDataBlock_eq_zero {sb : SuperBlock} (h : 0 < sb.logBlockSize.toNat) :
    sb.firstDataBlock = 0 := by
  rw [SuperBlock.firstDataBlock, if_neg]
  rintro hzero
  rw [hzero] at h
  exact absurd h (by decide)

/-- Without an overflow the code has the number of groups right. -/
theorem toNat_blockGroupCount_eq (h : WellFormed image)
    (hlog : 0 < (superBlock image).logBlockSize.toNat)
    (hlt : (superBlock image).blockCount.toNat + (superBlock image).blocksPerGroup.toNat ≤ 2 ^ 32) :
    (superBlock image).blockGroupCount.toNat = (superBlock image).groups := by
  have hbpg := h.blocksPerGroup_pos
  rw [SuperBlock.toNat_blockGroupCount hbpg, Nat.mod_eq_of_lt (by omega), SuperBlock.groups,
    firstDataBlock_eq_zero hlog, Nat.sub_zero]

theorem groupBytes_eq (h : WellFormed image)
    (hlog : 0 < (superBlock image).logBlockSize.toNat)
    (hlt : (superBlock image).blockCount.toNat + (superBlock image).blocksPerGroup.toNat ≤ 2 ^ 32) :
    (superBlock image).groupBytes = 32 * (superBlock image).groups % 2 ^ 32 := by
  rw [SuperBlock.groupBytes, BitVec.toNat_mul, toNat_blockGroupCount_eq h hlog hlt, Nat.mul_comm]
  rfl

theorem groupOf_le (sb : SuperBlock) {n : U32} (hn : sb.HasInode n) :
    sb.groupOf n ≤ sb.groupOf sb.inodeCount :=
  Nat.div_le_div_right (Nat.sub_le_sub_right hn.2 1)

theorem groupOf_lt (h : WellFormed image) (hn : (superBlock image).HasInode n) :
    (superBlock image).groupOf n < (superBlock image).groups := by
  have hle := h.inodeCount_le
  have := hn.2
  have := hn.1
  rw [SuperBlock.groupOf, Nat.div_lt_iff_lt_mul h.inodesPerGroup_pos]
  omega

end Ext2Device

namespace Image

open Ext2Device

variable {d : Ext2Device σ} {image : ℕ → Byte} {n : U32}

theorem Addressed.inodeTable (ha : Addressed image) (h : WellFormed image)
    (hn : (superBlock image).HasInode n) :
    d.inodeTable (groupTable image) ((superBlock image).groupOf n) =
      inodeTable image ((superBlock image).groupOf n) := by
  have hbytes := groupBytes_eq h ha.logBlockSize_pos ha.groups_lt
  have hle := groupOf_le _ hn
  have hloaded := ha.loaded
  rw [inodeTable_groupTable d (by omega) (by rw [hbytes]; exact ha.loaded_lt), Image.inodeTable,
    SuperBlock.descriptors, firstDataBlock_eq_zero ha.logBlockSize_pos, Nat.zero_add, Nat.one_mul]

theorem Addressed.addressable (ha : Addressed image) (h : WellFormed image)
    (hn : (superBlock image).HasInode n) : InodeAddressable (superBlock image) n where
  inodesPerGroup_ne hzero := by
    have := h.inodesPerGroup_pos
    rw [hzero] at this
    exact absurd this (by decide)
  group_lt := by
    have hlt := groupOf_lt h hn
    rw [SuperBlock.groupOf, ← toNat_blockGroupCount_eq h ha.logBlockSize_pos ha.groups_lt,
      ← show (n - 1).toNat = n.toNat - 1 from BitVec.toNat_sub_of_le hn.1,
        ← BitVec.toNat_udiv] at hlt
    exact BitVec.lt_def.mpr hlt
  logBlockSize_le := h.logBlockSize_le
  inodeSize_ne hzero := by
    have := h.inodeSize_ge
    rw [hzero] at this
    exact absurd this (by decide)
  inodeSize_le := by
    have hge := SuperBlock.blockSize_ge h.logBlockSize_le
    exact Nat.le_of_dvd (by omega) h.inodeSize_dvd

/-- **On these volumes every inode is found**, whatever the partition and the disk. -/
theorem Addressed.readsInode (ha : Addressed image) (h : WellFormed image) (hd : d.Holds image)
    (hn : (superBlock image).HasInode n) (disk : σ) : d.ReadsInode image n disk := by
  rw [hd.readsInode_iff h]
  have htwo : (superBlock image).HasInode 2 := ⟨by decide, h.inodeCount_ge⟩
  refine ⟨ha.addressable h htwo, fun s ↦ ?_⟩
  have hblock := toNat_inodeBlock_of_eq (d := d) h hn (ha.inodeTable h hn)
  obtain ⟨hlt, hroom⟩ := h.inodeByte_inside hn
  obtain ⟨hpass, hserves, hbytes⟩ := hd.block h (b := d.inodeBlock (superBlock image)
    (groupTable image) (n - 1)) (by omega) (hblock ▸ ha.sector_lt n hn)
  have hread : d.InodeReadable (superBlock image) (groupTable image) n s.disk :=
    ⟨ha.addressable h hn, BitVec.le_of_lt (BitVec.lt_def.mpr (hblock ▸ hlt)), hpass,
      hserves s.disk⟩
  obtain ⟨t, ht, -⟩ := hread.readInode
  refine ⟨t, ?_⟩
  rw [ht, hbytes, toNat_inodeOffset h hn, take_drop_map_range _ hroom, hblock, inodeBytes]
  simp only [← Nat.add_assoc, Nat.div_add_mod']

end Image

/-! ## Volumes on which it does not -/

namespace Ext2Device

open Image

/-- The byte from which `read_inode` reads. -/
def readAt (d : Ext2Device σ) (image : ℕ → Byte) (n : U32) : ℕ :=
  (d.inodeBlock (superBlock image) (groupTable image) (n - 1) *
      ((superBlock image).blockSize / d.disk.blockSize)).toNat * 512 +
    ((superBlock image).inodeOffset (n - 1)).toNat

end Ext2Device

namespace Image

open Ext2Device

variable {image image' : ℕ → Byte} {n : U32}

/-- A disk with an image and nothing else, all of which can be read. -/
def device (image : ℕ → Byte) : Ext2Device Unit := DiskImage.toDevice ⟨image, fun _ ↦ false⟩

theorem holds_device (h : WellFormed image) : (device image).Holds image where
  start_le := (by decide : (0 : U64) ≤ 2 ^ 54)
  small := (by decide : ((2 ^ 54 : U64).toNat - (0 : U64).toNat) * 512 < 2 ^ 64)
  room := by
    have hbs := SuperBlock.blockSize_le h.logBlockSize_le
    have hle : sectors image ≤ 2 ^ 32 * 2 ^ 22 := by
      rw [sectors]
      exact Nat.mul_le_mul (superBlock image).blockCount.isLt.le (by omega)
    exact hle.trans (by decide : 2 ^ 32 * 2 ^ 22 ≤ (2 ^ 54 : U64).toNat - (0 : U64).toNat + 1)
  contents lba count _ := by
    rw [show (device image).partition.startLba = 0#64 from rfl, BitVec.add_zero]
    rfl
  served lba count disk _ := List.all_eq_true.mpr fun _ _ ↦ rfl

/-- Its partition lets every block through. -/
theorem passes_device (image : ℕ → Byte) {sb : SuperBlock} (h : sb.logBlockSize.toNat ≤ 21)
    (b : U32) : ((device image).toVolume sb h).passes b := by
  set v := (device image).toVolume sb h
  have hlba : (v.blockLba b).toNat < 2 ^ 32 := by
    rw [Ext2Volume.blockLba, BitVec.toNat_setWidth_of_le (by decide)]
    exact BitVec.isLt _
  have hcount := v.sectorsPerBlock_lt
  have hle : v.partition.startLba ≤ v.partition.endLba := (by decide : (0 : U64) ≤ 2 ^ 54)
  rw [Ext2Volume.passes, Partition.outOfRange_eq_false_iff hle, Partition.Passes]
  rw [show v.disk.blockSize.toNat = 512 from rfl, show v.partition.endLba.toNat = 2 ^ 54 from rfl,
    show v.partition.startLba.toNat = 0 from rfl, Nat.mod_eq_of_lt (by omega)]
  omega

theorem serves_device (image : ℕ → Byte) {sb : SuperBlock} (h : sb.logBlockSize.toNat ≤ 21)
    (b : U32) (disk : Unit) : ((device image).toVolume sb h).serves b disk :=
  List.all_eq_true.mpr fun _ _ ↦ rfl

/-- And its blocks are as on the image, whatever the numbers. -/
theorem getElem?_blockBytes_device {image : ℕ → Byte} {sb : SuperBlock}
    (h : sb.logBlockSize.toNat ≤ 21) {b : U32} {i : ℕ} {x : Byte}
    (hx : (((device image).toVolume sb h).blockBytes b)[i]? = some x) :
    x = image ((b * (sb.blockSize / (device image).disk.blockSize)).toNat * 512 + i) := by
  set v := (device image).toVolume sb h
  have hlba : (v.blockLba b + v.partition.startLba).toNat =
      (b * (sb.blockSize / (device image).disk.blockSize)).toNat := by
    rw [show v.partition.startLba = 0#64 from rfl, BitVec.add_zero, Ext2Volume.blockLba,
      BitVec.toNat_setWidth_of_le (by decide)]
    rfl
  change (DiskImage.contents _ _ _)[i]? = _ at hx
  rw [DiskImage.contents, List.getElem?_map, Option.map_eq_some_iff] at hx
  obtain ⟨j, hj, rfl⟩ := hx
  rw [List.getElem?_eq_some_iff] at hj
  obtain ⟨hlt, rfl⟩ := hj
  rw [List.getElem_range, hlba]

/-- **What is read first**: if an inode is found, then its first byte is the one at `readAt`. -/
theorem eq_readAt (h : WellFormed image) (hread : (device image).ReadsInode image n ()) :
    image (inodeByte image n) = image ((device image).readAt image n) := by
  obtain ⟨-, hread⟩ := ((holds_device h).readsInode_iff h n ()).mp hread
  obtain ⟨t, hread⟩ := hread DiskImage.mounted
  have haddr := Ext2Device.inodeAddressable_of_readInode hread
  have hreadable : (device image).InodeReadable (superBlock image) (Ext2Device.groupTable image) n
      DiskImage.mounted.disk :=
    ⟨haddr, Ext2Device.block_le_of_readInode hread, passes_device image haddr.logBlockSize_le _,
      serves_device image haddr.logBlockSize_le _ _⟩
  obtain ⟨t', hread', -⟩ := hreadable.readInode
  have hbytes := Option.some.inj (congrArg (·.2.1) (Except.ok.inj (hread.symm.trans hread')))
  have hfirst := congrArg (·[0]?) hbytes
  rw [inodeBytes, List.getElem?_map, List.getElem?_range (by decide), List.getElem?_take_of_lt
    (by decide), List.getElem?_drop] at hfirst
  exact getElem?_blockBytes_device haddr.logBlockSize_le hfirst.symm

/-! ### Images with the same layout -/

theorem SameLayout.refl (image : ℕ → Byte) : SameLayout image image := ⟨rfl, fun _ _ ↦ rfl⟩

theorem SameLayout.trans {image'' : ℕ → Byte} (h : SameLayout image image')
    (h' : SameLayout image' image'') : SameLayout image image'' where
  superBlock_eq := h'.superBlock_eq.trans h.superBlock_eq
  inodeTable_eq group hgroup :=
    (h'.inodeTable_eq group (h.superBlock_eq ▸ hgroup)).trans (h.inodeTable_eq group hgroup)

/-- A change outside of the descriptors and of what is used of the superblock. -/
theorem sameLayout_of_eq (h : WellFormed image)
    (heq : ∀ p < (superBlock image).descriptors + 32 * (superBlock image).groups,
      p < 1032 ∨ 1036 ≤ p → image' p = image p) : SameLayout image image' := by
  have hdesc := SuperBlock.descriptors_ge h.logBlockSize_le
  have hsb : superBlock image' = superBlock image :=
    SuperBlock.ofBytes_congr fun p hp hne ↦ heq _ (by omega) (by omega)
  refine ⟨hsb, fun group hgroup ↦ ?_⟩
  rw [inodeTable, inodeTable, hsb, le32, le32, heq _ (by omega) (by omega),
    heq _ (by omega) (by omega), heq _ (by omega) (by omega), heq _ (by omega) (by omega)]

theorem SameLayout.inodeByte_eq (hs : SameLayout image image') (h : WellFormed image)
    (hn : (superBlock image).HasInode n) : inodeByte image' n = inodeByte image n := by
  rw [inodeByte, inodeByte, hs.superBlock_eq,
    hs.inodeTable_eq _ (Ext2Device.groupOf_lt h hn)]

theorem SameLayout.wellFormed (hs : SameLayout image image') (h : WellFormed image) :
    WellFormed image' := by
  have hsb := hs.superBlock_eq
  exact {
    accepted := hsb ▸ h.accepted
    compatible := hsb ▸ h.compatible
    logBlockSize_le := hsb ▸ h.logBlockSize_le
    inodeSize_ge := hsb ▸ h.inodeSize_ge
    inodeSize_dvd := hsb ▸ h.inodeSize_dvd
    blocksPerGroup_pos := hsb ▸ h.blocksPerGroup_pos
    inodesPerGroup_pos := hsb ▸ h.inodesPerGroup_pos
    table_lt := hsb ▸ h.table_lt
    inodeCount_ge := hsb ▸ h.inodeCount_ge
    inodeCount_le := hsb ▸ h.inodeCount_le
    behind := fun n hn ↦ by
      rw [hsb] at hn ⊢
      rw [hs.inodeByte_eq h hn]
      exact h.behind n hn
    inside := fun n hn ↦ by
      rw [hsb] at hn ⊢
      rw [hs.inodeByte_eq h hn]
      exact h.inside n hn }

/-- All that the constructor loads lies before the inodes. -/
theorem groupTable_congr (h : WellFormed image) (hs : superBlock image' = superBlock image)
    (heq : ∀ p < (superBlock image).descriptors + 32 * (superBlock image).groups,
      image' p = image p) : Ext2Device.groupTable image' = Ext2Device.groupTable image := by
  have hle := SuperBlock.groups_le h.logBlockSize_le h.blocksPerGroup_pos
  have hbytes : (superBlock image).groupBytes ≤ 32 * (superBlock image).blockGroupCount.toNat := by
    rw [SuperBlock.groupBytes, BitVec.toNat_mul, Nat.mul_comm]
    exact Nat.mod_le _ _
  rw [Ext2Device.groupTable, Ext2Device.groupTable, hs]
  congr 1
  rw [← List.map_take, ← List.map_take]
  refine List.map_congr_left fun p hp ↦ heq _ ?_
  rw [List.take_range, List.mem_range, lt_min_iff] at hp
  omega

/-- **An inode is found for all it may hold only if it is read where it is.** -/
theorem readAt_eq (h : WellFormed image) (hn : (superBlock image).HasInode n)
    (hread : ∀ image', SameLayout image image' → (device image').ReadsInode image' n ()) :
    (device image).readAt image n = inodeByte image n := by
  by_contra hne
  set image' := Function.update image (inodeByte image n) (image (inodeByte image n) + 1)
    with himage'
  have hbehind := h.behind n hn
  have hbefore : ∀ p < (superBlock image).descriptors + 32 * (superBlock image).groups,
      image' p = image p := fun p hp ↦ Function.update_of_ne (by omega) _ _
  have hs : SameLayout image image' := sameLayout_of_eq h fun p hp _ ↦ hbefore p hp
  have hat : (device image').readAt image' n = (device image).readAt image n := by
    rw [Ext2Device.readAt, Ext2Device.readAt, groupTable_congr h hs.superBlock_eq hbefore,
      hs.superBlock_eq]
    rfl
  have hold := eq_readAt h (hread image (.refl image))
  have hnew := eq_readAt (hs.wellFormed h) (hread image' hs)
  rw [hs.inodeByte_eq h hn, hat, himage', Function.update_self, Function.update_of_ne hne,
    ← hold] at hnew
  bv_omega

/-! ### What goes wrong -/

/-- `readAt`, by the descriptor found. -/
theorem readAt_eq_of_inodeTable (h : WellFormed image) (hn : (superBlock image).HasInode n) :
    (device image).readAt image n =
      ((((device image).inodeTable (groupTable image) ((superBlock image).groupOf n)).toNat +
          (superBlock image).inodePos n / (superBlock image).blockSize.toNat) % 2 ^ 32 *
        ((superBlock image).blockSize.toNat / 512)) % 2 ^ 32 * 512 +
      inodeByte image n % (superBlock image).blockSize.toNat := by
  rw [readAt, toNat_inodeOffset h hn, BitVec.toNat_mul, toNat_inodeBlock h hn, BitVec.toNat_udiv]
  rfl

/-- The first inode of a group whose descriptor is taken to be zero is read from the beginning of
the volume, where it is not. -/
theorem readAt_ne_of_zero (h : WellFormed image) (hn : (superBlock image).HasInode n)
    (hfirst : (superBlock image).inodePos n = 0)
    (hword : (device image).inodeTable (groupTable image) ((superBlock image).groupOf n) = 0) :
    (device image).readAt image n ≠ inodeByte image n := by
  have hbehind := h.behind n hn
  have hdesc := SuperBlock.descriptors_ge h.logBlockSize_le
  rw [readAt_eq_of_inodeTable h hn, hword, (h.inodeByte_div n).2, hfirst, Nat.zero_div,
    Nat.zero_mod,
    show (0 : U32).toNat = 0 from rfl, Nat.zero_mod, Nat.zero_mul, Nat.zero_mod]
  omega

/-- In blocks of a kilobyte, `r_block_count` is taken for the first inode table. -/
theorem exists_readAt_ne (h : WellFormed image)
    (hlog : (superBlock image).logBlockSize.toNat = 0) :
    ∃ image', SameLayout image image' ∧ (device image').readAt image' 1 ≠ inodeByte image' 1 := by
  set image' : ℕ → Byte := fun p ↦ if p < 1032 ∨ 1036 ≤ p then image p else 0 with himage'
  have hs : SameLayout image image' := sameLayout_of_eq h fun p _ hp ↦ if_pos hp
  have h' := hs.wellFormed h
  have hbs : (superBlock image').blockSize.toNat = 1024 := by
    rw [hs.superBlock_eq, SuperBlock.toNat_blockSize h.logBlockSize_le, hlog]
    rfl
  refine ⟨image', hs, readAt_ne_of_zero h' h'.hasInode_one ?_ ?_⟩
  · rw [SuperBlock.inodePos, show (1 : U32).toNat - 1 = 0 from rfl, Nat.zero_mod, Nat.zero_mul]
  · rw [SuperBlock.groupOf, show (1 : U32).toNat - 1 = 0 from rfl, Nat.zero_div]
    by_cases hloaded : 32 * (0 + 1) ≤ (superBlock image').groupBytes ∧
        (superBlock image').groupBytes + 511 < 2 ^ 32
    · rw [inodeTable_groupTable _ hloaded.1 hloaded.2, hbs]
      simp [le32, himage']
    · exact inodeTable_eq_zero _ (fun _ ↦ rfl) hloaded

/-- The first inode of the last group that has one. -/
theorem WellFormed.exists_last (h : WellFormed image) :
    ∃ n, (superBlock image).HasInode n ∧ (superBlock image).inodePos n = 0 ∧
      (superBlock image).groupOf n = (superBlock image).groupOf (superBlock image).inodeCount := by
  have hge := h.inodeCount_ge
  have hipg := h.inodesPerGroup_pos
  have hlt := (superBlock image).inodeCount.isLt
  set last := ((superBlock image).inodeCount.toNat - 1) / (superBlock image).inodesPerGroup.toNat
    with hlast
  have hle : last * (superBlock image).inodesPerGroup.toNat ≤
    (superBlock image).inodeCount.toNat - 1 :=
    Nat.div_mul_le_self _ _
  have hn : (BitVec.ofNat 32 (last * (superBlock image).inodesPerGroup.toNat + 1)).toNat =
      last * (superBlock image).inodesPerGroup.toNat + 1 := by
    rw [BitVec.toNat_ofNat, Nat.mod_eq_of_lt (by omega)]
  refine ⟨BitVec.ofNat 32 (last * (superBlock image).inodesPerGroup.toNat + 1), ⟨?_, ?_⟩, ?_, ?_⟩
  · omega
  · omega
  · rw [SuperBlock.inodePos, hn, Nat.add_sub_cancel, Nat.mul_mod_left, Nat.zero_mul]
  · rw [SuperBlock.groupOf, hn, Nat.add_sub_cancel, Nat.mul_div_cancel _ hipg, hlast,
      SuperBlock.groupOf]

/-- **On which volumes the inodes are found**, whatever is in them and on whatever partition and
disk the volume is. -/
theorem readsInodes_iff (h : WellFormed image) :
    (∀ image', SameLayout image image' → ∀ (σ : Type) (d : Ext2Device σ) (disk : σ),
      d.Holds image' → ∀ n, (superBlock image).HasInode n → d.ReadsInode image' n disk) ↔
    Addressed image := by
  constructor
  · intro hall
    have hread : ∀ n, (superBlock image).HasInode n → ∀ image', SameLayout image image' →
        (device image').ReadsInode image' n () := fun n hn image' hs ↦
      hall image' hs Unit _ () (holds_device (hs.wellFormed h)) n hn
    have hplace : ∀ n, (superBlock image).HasInode n →
        (device image).readAt image n = inodeByte image n := fun n hn ↦ readAt_eq h hn (hread n hn)
    have hlog : 0 < (superBlock image).logBlockSize.toNat := by
      by_contra hzero
      obtain ⟨image', hs, hne⟩ := exists_readAt_ne h (Nat.eq_zero_of_not_pos hzero)
      have h' := hs.wellFormed h
      exact hne (readAt_eq h' h'.hasInode_one fun image'' hs' ↦
        hread 1 h.hasInode_one image'' (hs.trans hs'))
    have hgroups : (superBlock image).blockCount.toNat + (superBlock image).blocksPerGroup.toNat ≤
        2 ^ 32 := by
      by_contra hwrap
      have haddr := (((holds_device h).readsInode_iff h 1 ()).mp
        (hread 1 h.hasInode_one image (.refl image))).1
      have hzero : (superBlock image).blockGroupCount.toNat = 0 := by
        have hbpg := h.blocksPerGroup_pos
        have hblocks := (superBlock image).blockCount.isLt
        rw [SuperBlock.toNat_blockGroupCount hbpg]
        refine Nat.div_eq_of_lt ?_
        omega
      have hlt := BitVec.lt_def.mp haddr.group_lt
      rw [hzero] at hlt
      exact absurd hlt (Nat.not_lt_zero _)
    have hbytes := groupBytes_eq h hlog hgroups
    have hloaded : 32 * ((superBlock image).groupOf (superBlock image).inodeCount + 1) ≤
        (superBlock image).groupBytes ∧ (superBlock image).groupBytes + 511 < 2 ^ 32 := by
      by_contra hnot
      obtain ⟨n, hn, hpos, hlast⟩ := h.exists_last
      exact readAt_ne_of_zero h hn hpos (hlast ▸ inodeTable_eq_zero _ (fun _ ↦ rfl) hnot)
        (hplace n hn)
    refine ⟨hlog, hgroups, hbytes ▸ hloaded.1, hbytes ▸ hloaded.2, fun n hn ↦ ?_⟩
    by_contra hwrap
    -- the code reads below the sector it should
    have hle := groupOf_le _ hn
    have hword : (device image).inodeTable (groupTable image) ((superBlock image).groupOf n) = _ :=
      inodeTable_groupTable (device image) (by omega) hloaded.2
    have hat := hplace n hn
    have hlt := (h.inodeByte_inside hn).1
    have hblocks := (superBlock image).blockCount.isLt
    rw [readAt_eq_of_inodeTable h hn, hword, show le32 image _ = inodeTable image
      ((superBlock image).groupOf n) by
        rw [inodeTable, SuperBlock.descriptors, firstDataBlock_eq_zero hlog, Nat.zero_add,
          Nat.one_mul], ← (h.inodeByte_div n).1, Nat.mod_eq_of_lt (hlt.trans hblocks)] at hat
    have hdiv := Nat.div_add_mod' (inodeByte image n) (superBlock image).blockSize.toNat
    have hmul := SuperBlock.sectors_mul h.logBlockSize_le
    rw [← hmul, ← Nat.mul_assoc, hmul] at hdiv
    have hmod := Nat.mod_lt (inodeByte image n / (superBlock image).blockSize.toNat *
      ((superBlock image).blockSize.toNat / 512)) (by decide : 0 < 2 ^ 32)
    omega
  · rintro ha image' hs σ d disk hd n hn
    have h' := hs.wellFormed h
    have ha' : Addressed image' := by
      have hsb := hs.superBlock_eq
      exact ⟨hsb ▸ ha.logBlockSize_pos, hsb ▸ ha.groups_lt, hsb ▸ ha.loaded, hsb ▸ ha.loaded_lt,
        fun n hn ↦ by
          rw [hsb] at hn ⊢
          rw [hs.inodeByte_eq h hn]
          exact ha.sector_lt n hn⟩
    exact ha'.readsInode h' hd (hs.superBlock_eq ▸ hn) disk

/-- The superblock of a volume of eight blocks with eight inodes. -/
def smallSuperBlock (logBlockSize : U32) : SuperBlock :=
  ⟨8, 8, logBlockSize, 8192, 8, 0xef53, 0, ⟨0, 0, 0⟩⟩

/-- Such a volume, with the inodes from block 4 on, the first of them not empty. -/
def smallImage (logBlockSize : Byte) : ℕ → Byte := fun p ↦
  if p = 1024 ∨ p = 1028 ∨ p = 1064 then 8
  else if p = 1048 then logBlockSize
  else if p = 1057 then 0x20
  else if p = 1080 then 0x53
  else if p = 1081 then 0xef
  else if p = 2056 then 4
  else if p = 4096 then 1
  else 0

theorem wellFormed_small {k : U32} (hk : k = 0 ∨ k = 1)
    (hsb : superBlock image = smallSuperBlock k) (htable : inodeTable image 0 = 4) :
    WellFormed image := by
  have hbyte : ∀ n, (superBlock image).HasInode n →
      inodeByte image n = 4 * (smallSuperBlock k).blockSize.toNat + (n.toNat - 1) * 128 := by
    intro n hn
    rw [hsb] at hn
    have hlt : n.toNat - 1 < 8 := by
      have := hn.2
      rw [show (smallSuperBlock k).inodeCount.toNat = 8 from rfl] at this
      omega
    rw [inodeByte, hsb, SuperBlock.groupOf, SuperBlock.inodePos,
      show (smallSuperBlock k).inodesPerGroup.toNat = 8 from rfl,
      show (smallSuperBlock k).inodeSize.toNat = 128 from rfl, Nat.div_eq_of_lt hlt,
      Nat.mod_eq_of_lt hlt, htable]
    rfl
  have hcount : ∀ n, (superBlock image).HasInode n → n.toNat ≤ 8 := fun n hn ↦ by
    rw [hsb] at hn
    exact hn.2
  refine ⟨?_, ?_, ?_, ?_, ?_, ?_, ?_, ?_, ?_, ?_, fun n hn ↦ ?_, fun n hn ↦ ?_⟩
  case refine_11 =>
    rw [hbyte n hn, hsb]
    obtain rfl | rfl := hk
    · exact (by decide : (smallSuperBlock 0).descriptors + 32 * (smallSuperBlock 0).groups ≤
        4 * (smallSuperBlock 0).blockSize.toNat).trans (Nat.le_add_right _ _)
    · exact (by decide : (smallSuperBlock 1).descriptors + 32 * (smallSuperBlock 1).groups ≤
        4 * (smallSuperBlock 1).blockSize.toNat).trans (Nat.le_add_right _ _)
  case refine_12 =>
    have hn' := hcount n hn
    rw [hbyte n hn, hsb]
    obtain rfl | rfl := hk
    · change 4 * 1024 + _ + 128 ≤ 8 * 1024
      omega
    · change 4 * 2048 + _ + 128 ≤ 8 * 2048
      omega
  all_goals
    rw [hsb]
    obtain rfl | rfl := hk <;> decide

theorem superBlock_smallImage : superBlock (smallImage 0) = smallSuperBlock 0 ∧
    superBlock (smallImage 1) = smallSuperBlock 1 := by
  decide

theorem inodeTable_smallImage : inodeTable (smallImage 0) 0 = 4 ∧
    inodeTable (smallImage 1) 0 = 4 := by
  decide

/-- In blocks of two kilobytes. -/
theorem readsInodes_smallImage :
    (∀ image', SameLayout (smallImage 1) image' → ∀ (σ : Type) (d : Ext2Device σ) (disk : σ),
      d.Holds image' → ∀ n, (superBlock (smallImage 1)).HasInode n → d.ReadsInode image' n disk) ↔
    Addressed (smallImage 1) :=
  readsInodes_iff (wellFormed_small (.inr rfl) superBlock_smallImage.2 inodeTable_smallImage.2)

/-- In blocks of one, the first inode is read from the beginning of the volume. -/
theorem not_readsInode_smallImage :
    ¬ ∀ (image : ℕ → Byte), WellFormed image → ∀ n, (superBlock image).HasInode n →
      (device image).ReadsInode image n () := by
  intro hall
  have hsmall := wellFormed_small (.inl rfl) superBlock_smallImage.1 inodeTable_smallImage.1
  have hread := eq_readAt hsmall (hall _ hsmall 1 hsmall.hasInode_one)
  have hbytes : (superBlock (smallImage 0)).groupBytes = 32 := by
    rw [superBlock_smallImage.1]
    decide
  have hword : (device (smallImage 0)).inodeTable (groupTable (smallImage 0)) 0 = 0 := by
    rw [inodeTable_groupTable _ (by omega) (by omega), superBlock_smallImage.1]
    decide
  have hzero : (device (smallImage 0)).readAt (smallImage 0) 1 = 0 := by
    rw [readAt_eq_of_inodeTable hsmall hsmall.hasInode_one, SuperBlock.groupOf,
      show (1 : U32).toNat - 1 = 0 from rfl, Nat.zero_div, hword, inodeByte_one,
        SuperBlock.inodePos,
      show (1 : U32).toNat - 1 = 0 from rfl, Nat.zero_mod, Nat.zero_mul, Nat.zero_div,
      Nat.mul_mod_left]
    rfl
  rw [hzero, inodeByte_one, inodeTable_smallImage.1, superBlock_smallImage.1] at hread
  exact absurd hread (by decide)

end Image

end Borrrdex
