import Borrrdex.Fs.BlockMap
import Borrrdex.Fs.Ext2Mount
import Borrrdex.Kstd.Strncmp
import Borrrdex.Kstd.Strncpy

/-!
# Directories of an ext2 volume

A directory is a file whose blocks are filled with records of different lengths.  `find_dir` and
`read_dir` load one block at a time into a buffer on the stack and go from record to record with a
pointer into it.  What they read through the pointer may lie behind the buffer, where the rest of
the memory is; so a buffer has its place in a memory here (`Frame`), and every function also returns
the offsets from the start of the buffer at which it read.

How a block is loaded is a parameter of the loops (`DirScan`), since the source does it in four
places; `DirScan.Loads` says that it always gives the same blocks.
-/

set_option autoImplicit false

namespace Borrrdex

open Splice FlatMemory

variable {σ τ : Type}

/-! ## Records -/

/-- What the two functions use of an `ext2_node`, besides what `find_data_block` does. -/
structure Ext2Dir extends Ext2File where
  isDir : Bool
  inode : U32
  iBlocks : U32

/-- The memory a call works in: where its buffer is, the `_name` of the entry that `read_dir` fills,
and what is everywhere else. -/
structure Frame where
  mem : Mem
  buffer : U64
  entName : U64

namespace Frame

variable (f : Frame)

/-- The memory with a block in the buffer. -/
def load (block : List Byte) : Mem := fun a ↦ block[(a - f.buffer).toNat]?.getD (f.mem a)

/-- The byte at an offset from the start of the buffer. -/
def byte (block : List Byte) (p : ℕ) : Byte := f.load block (f.buffer + BitVec.ofNat 64 p)

/-- Inside the buffer it is the block's. -/
theorem byte_eq {block : List Byte} (hlen : block.length ≤ 2 ^ 32) {p : ℕ} (hp : p < block.length) :
    f.byte block p = block[p] := by
  have hoff : (f.buffer + BitVec.ofNat 64 p - f.buffer).toNat = p := by
    rw [add_sub_cancel_left, BitVec.toNat_ofNat, Nat.mod_eq_of_lt (by omega)]
  rw [byte, load, hoff, List.getElem?_eq_getElem hp, Option.getD_some]

end Frame

/-! ### `ext2_directory_entry_t`, at an offset -/

section

variable (byte : ℕ → Byte) (o : ℕ)

/-- `inode`. -/
def direntInode : U32 := le32 byte o

/-- `rec_len`, as it is added to the offsets. -/
def direntRecLen : U32 := (le16 byte (o + 4)).setWidth 32

/-- `name_len`. -/
def direntNameLen : ℕ := (byte (o + 6)).toNat

/-- `file_type`. -/
def direntFileType : Byte := byte (o + 7)

/-- `name[i]`. -/
def direntName (i : ℕ) : Byte := byte (o + 8 + i)

/-- Where the inode number is read. -/
def inodeReads : List ℕ := [o, o + 1, o + 2, o + 3]

/-- Where the record length is read. -/
def recLenReads : List ℕ := [o + 4, o + 5]

end

/-! ## The loops -/

/-- What the loops use: how to load a block, the sizes, and the memory. -/
structure DirScan (τ : Type) where
  load : U32 → List Byte → τ → Option (List Byte) × τ
  blockSize : U32
  /-- `i_blocks / (_block_size / block_size())`. -/
  blocks : U32
  iSize : U32
  frame : Frame

/-- The variables of a loop; `dirent` is `ext2_dirent`, as an offset. -/
structure DirCursor where
  currentBlock : U32
  blockOffset : U32
  totalOffset : U32
  dirent : ℕ
  buffer : List Byte

/-- At the beginning of the block in the buffer. -/
def DirCursor.start (buffer : List Byte) : DirCursor := ⟨0, 0, 0, 0, buffer⟩

/-- What an iteration of the loop of `find_dir` comes to: the next one, the code behind the loop, or
`return nullptr`. -/
inductive FindDirStep (τ : Type)
  | next (c : DirCursor) (t : τ)
  | leave (c : DirCursor) (t : τ)
  | null (t : τ)

/-- What the loop of `read_dir` comes to: a code, or the entry to be copied. -/
inductive ReadDirEnd
  | ret (code : ℤ)
  | entry (c : DirCursor)

/-- What an iteration of it comes to: the next one, with `index` as it then is, or the end. -/
inductive ReadDirStep (τ : Type)
  | next (index : U32) (c : DirCursor) (t : τ)
  | done (r : ReadDirEnd) (t : τ)

namespace DirScan

variable (d : DirScan τ)

/-- `strnlen(name, NAME_MAX) == name_len && strncmp(name, ext2_dirent->name, name_len) == 0`. -/
def nameMatches (name : U64) (byte : ℕ → Byte) (o : ℕ) : Bool × List ℕ :=
  if strnlen d.frame.mem name 255 = direntNameLen byte o then
    let (result, chars) := strncmp (fun i ↦ d.frame.mem (name + BitVec.ofNat 64 i))
      (direntName byte o) (direntNameLen byte o)
    (result = 0, (o + 6) :: (List.range chars).map (o + 8 + ·))
  else (false, [o + 6])

/-- The rest of an iteration of the loop of `find_dir`, when the record is not the one. -/
def findDirAdvance (recLen : U32) (c : DirCursor) (t : τ) : FindDirStep τ :=
  let blockOffset := c.blockOffset + recLen
  let totalOffset := c.totalOffset + recLen
  if totalOffset > d.iSize then .null t
  else if blockOffset ≥ d.blockSize then
    let currentBlock := c.currentBlock + 1
    if currentBlock ≥ d.blocks then .null t
    else
      match d.load currentBlock c.buffer t with
      | (none, t) => .null t
      | (some buffer, t) => .next ⟨currentBlock, 0, totalOffset, 0, buffer⟩ t
  else .next ⟨c.currentBlock, blockOffset, totalOffset, blockOffset.toNat, c.buffer⟩ t

/-- One iteration of it. -/
def findDirStep (name : U64) (c : DirCursor) (t : τ) : FindDirStep τ × List ℕ :=
  let byte := d.frame.byte c.buffer
  let o := c.dirent
  if ¬ c.currentBlock < d.blocks then (.leave c t, [])
  else if direntRecLen byte o < 8 then (.leave c t, recLenReads o)
  else
    let (found, reads) :=
      if direntInode byte o > 0 then d.nameMatches name byte o else (false, [])
    let reads := recLenReads o ++ inodeReads o ++ reads
    if found then (.leave c t, reads)
    else (d.findDirAdvance (direntRecLen byte o) c t, reads)

/-- The loop of `find_dir`: the cursor with which it is left, or `none` where `nullptr` is
returned. -/
def findDirLoop (name : U64) : ℕ → DirCursor → τ → Option (Option DirCursor × τ × List ℕ)
  | 0, _, _ => none
  | fuel + 1, c, t =>
    match d.findDirStep name c t with
    | (.next c t, reads) =>
      (findDirLoop name fuel c t).map fun (r, t, reads') ↦ (r, t, reads ++ reads')
    | (.leave c t, reads) => some (some c, t, reads)
    | (.null t, reads) => some (none, t, reads)

/-- The iterations that are enough: `_block_size` of them for each block. -/
def findDirFuel : ℕ := (d.blocks.toNat + 1) * (d.blockSize.toNat + 1)

/-- `find_dir` as far as it reads the directory: the inode number it has found, if any. -/
def findEntry (name : U64) (inodeCount : U32) (buffer : List Byte) (t : τ) :
    Option (Option U32 × τ × List ℕ) :=
  match d.load 0 buffer t with
  | (none, t) => some (none, t, [])
  | (some buffer, t) =>
    match d.findDirLoop name d.findDirFuel (.start buffer) t with
    | none => none
    | some (none, t, reads) => some (none, t, reads)
    | some (some c, t, reads) =>
      let byte := d.frame.byte c.buffer
      let (found, reads') := d.nameMatches name byte c.dirent
      if !found then some (none, t, reads ++ reads')
      else
        let inode := direntInode byte c.dirent
        let reads := reads ++ reads' ++ inodeReads c.dirent
        if inode = 0 ∨ inode > inodeCount then some (none, t, reads)
        else some (some inode, t, reads)

/-- One iteration of the loop of `read_dir`. -/
def readDirStep (index : U32) (c : DirCursor) (t : τ) : ReadDirStep τ × List ℕ :=
  let byte := d.frame.byte c.buffer
  let o := c.dirent
  if direntRecLen byte o = 0 then (.done (.ret 0) t, recLenReads o)
  else
    let blockOffset := c.blockOffset + direntRecLen byte o
    let totalOffset := c.totalOffset + direntRecLen byte o
    if direntRecLen byte o < 8 then
      -- the offsets have been moved on, the pointer has not
      (.done (.entry ⟨c.currentBlock, blockOffset, totalOffset, o, c.buffer⟩) t, recLenReads o)
    else
      let index := if direntInode byte o = 0 then index - 1 else index
      let reads := recLenReads o ++ inodeReads o
      if blockOffset > d.blockSize then
        let currentBlock := c.currentBlock + 1
        if currentBlock ≥ d.blocks then (.done (.ret 0) t, reads)
        else
          match d.load currentBlock c.buffer t with
          | (none, t) => (.done (.ret (-1)) t, reads)
          | (some buffer, t) => (.next index ⟨currentBlock, 0, totalOffset, 0, buffer⟩ t, reads)
      else
        (.next index ⟨c.currentBlock, blockOffset, totalOffset, blockOffset.toNat,
          c.buffer⟩ t, reads)

/-- The loop of `read_dir`, with `i` as its counter. -/
def readDirLoop : ℕ → U32 → U32 → DirCursor → τ → Option (ReadDirEnd × τ × List ℕ)
  | 0, _, _, _, _ => none
  | fuel + 1, i, index, c, t =>
    if ¬ i < index then some (.entry c, t, [])
    else
      match d.readDirStep index c t with
      | (.next index c t, reads) =>
        (readDirLoop fuel (i + 1) index c t).map fun (r, t, reads') ↦ (r, t, reads ++ reads')
      | (.done r t, reads) => some (r, t, reads)

end DirScan

/-- The type of an entry, by `file_type`; for any other the flags are left as they are. -/
def direntFlags (fileType : Byte) : Option Byte :=
  if fileType = 1 then some 8       -- DT_REG
  else if fileType = 2 then some 4  -- DT_DIR
  else if fileType = 3 then some 2  -- DT_CHR
  else if fileType = 4 then some 6  -- DT_BLK
  else if fileType = 5 then some 1  -- DT_FIFO
  else if fileType = 6 then some 12 -- DT_SOCK
  else if fileType = 7 then some 10 -- DT_LNK
  else none

/-- What a call of `read_dir` comes to: the code, the memory with the entry's name, the flags it is
given, the state, and where in the buffer it read. -/
structure ReadDirResult (τ : Type) where
  code : ℤ
  mem : Mem
  flags : Option Byte
  state : τ
  reads : List ℕ

namespace DirScan

variable (d : DirScan τ)

/-- `read_dir`, of a directory. -/
def readEntry (index : U32) (buffer : List Byte) (t : τ) : Option (ReadDirResult τ) :=
  match d.load 0 buffer t with
  | (none, t) => some ⟨-1, d.frame.mem, none, t, []⟩
  | (some buffer, t) =>
    match d.readDirLoop (index.toNat + 1) 0 index (.start buffer) t with
    | none => none
    | some (.ret code, t, reads) => some ⟨code, d.frame.mem, none, t, reads⟩
    | some (.entry c, t, reads) =>
      let byte := d.frame.byte c.buffer
      let o := c.dirent
      let len := direntNameLen byte o
      -- `set_name`
      let max := if len > 0 then len + 1 else 255
      let name := d.frame.buffer + BitVec.ofNat 64 (o + 8)
      some
        { code := 1
          mem := strncpy d.frame.entName name max (d.frame.load c.buffer)
          flags := direntFlags (direntFileType byte o)
          state := t
          reads := reads ++ (o + 6) ::
            (List.range (strncpyReads d.frame.entName name max (d.frame.load c.buffer))).map
              (o + 8 + ·) ++ [o + 7] }

end DirScan

/-! ## The two functions -/

namespace Ext2Volume

variable (v : Ext2Volume σ)

/-- `find_data_block`, the test of what it returns, and `read_block`. -/
def loadDirBlock (node : Ext2Dir) (cache : Bool) (currentBlock : U32) (buffer : List Byte)
    (s : VolumeState σ) : Option (List Byte) × VolumeState σ :=
  let (blockNum, s) := v.findDataBlock node.toExt2File currentBlock s
  if blockNum < 1 then (none, s)
  else
    let (e, buffer, s) := v.readBlock (BitVec.ofInt 32 blockNum) buffer cache s
    if e < 0 then (none, s) else (some buffer, s)

/-- The loops, on a directory of the volume. -/
def dirScan (node : Ext2Dir) (cache : Bool) (frame : Frame) : DirScan (VolumeState σ) where
  load := v.loadDirBlock node cache
  blockSize := v.blockSize
  blocks := node.iBlocks / v.sectorsPerBlock
  iSize := node.size
  frame := frame

/-- `read_dir`; `buffer` is what is on the stack. -/
def readDir (enotdir : ℕ) (node : Ext2Dir) (index : U32) (frame : Frame) (buffer : List Byte)
    (s : VolumeState σ) : Option (ReadDirResult (VolumeState σ)) :=
  if !node.isDir then some ⟨-enotdir, frame.mem, none, s, []⟩
  else if node.inode = 0 then some ⟨-v.errno.einval, frame.mem, none, s, []⟩
  else (v.dirScan node false frame).readEntry index buffer s

/-- `find_dir`, up to the inode number of the node that it returns. -/
def findDirEntry (node : Ext2Dir) (name : U64) (inodeCount : U32) (frame : Frame)
    (buffer : List Byte) (s : VolumeState σ) : Option (Option U32 × VolumeState σ × List ℕ) :=
  if !node.isDir then some (none, s, [])
  else if node.inode = 0 then some (none, s, [])
  else (v.dirScan node true frame).findEntry name inodeCount buffer s

end Ext2Volume

/-- An `ext2_node`, as the cache of inodes has it: its number, and its inode if it could be read. -/
structure CachedNode where
  inode : U32
  bytes : Option (List Byte)

/-- The two caches of a mounted volume. -/
structure DirState (σ : Type) where
  volume : VolumeState σ
  inodes : LruCache U32 CachedNode

/-- What a call of `find_dir` comes to. -/
structure FindDirResult (σ : Type) where
  node : Option CachedNode
  state : DirState σ
  reads : List ℕ

/-- `find_dir`, on a mounted volume: `none` if the loop does not end. -/
def Ext2Device.findDir (d : Ext2Device σ) (sb : SuperBlock) (h : sb.logBlockSize.toNat ≤ 21)
    (blockGroups : List Byte) (node : Ext2Dir) (name : U64) (frame : Frame) (buffer : List Byte)
    (s : DirState σ) : Option (Except Fault (FindDirResult σ)) :=
  match (d.toVolume sb h).findDirEntry node name sb.inodeCount frame buffer s.volume with
  | none => none
  | some (none, t, reads) => some (.ok ⟨none, { s with volume := t }, reads⟩)
  | some (some inode, t, reads) =>
    match s.inodes.get inode with
    | some cached => some (.ok ⟨some cached, { s with volume := t }, reads⟩)
    | none =>
      match d.readInode sb blockGroups inode t with
      | .error fault => some (.error fault)
      | .ok (e, bytes, t) =>
        if e < 0 then some (.ok ⟨none, { s with volume := t }, reads⟩)
        else
          let cached : CachedNode := ⟨inode, bytes⟩
          -- `set` cannot fail: the cache has room for 1600 nodes
          let inodes := ((s.inodes.set inode cached).map Prod.fst).getD s.inodes
          some (.ok ⟨some cached, ⟨t, inodes⟩, reads⟩)

/-! ## Loading a block

On a volume all of whose blocks can be read it does not matter when a block is loaded and whether it
is in the cache. -/

/-- The blocks that are loaded are always the same, whatever is read meanwhile, and `I` is kept. -/
structure DirScan.Loads (d : DirScan τ) (blocks : U32 → Option (List Byte)) (I : τ → Prop) :
    Prop where
  load : ∀ j buffer t, I t → buffer.length = d.blockSize.toNat →
    (d.load j buffer t).1 = blocks j ∧ I (d.load j buffer t).2
  length : ∀ j block, blocks j = some block → block.length = d.blockSize.toNat

namespace Ext2Volume

variable (v : Ext2Volume σ)

/-- The blocks of the volume can be read. -/
structure Readable : Prop where
  fixed : v.media.Fixed
  passes : ∀ b ≤ v.blockCount, v.passes b
  serves : ∀ b ≤ v.blockCount, ∀ disk, v.serves b disk

/-- What `follow` returns, by what is on the disk: for a pointer block beyond the volume it is 1. -/
def followOnDisk : List (Bool × U32) → U32 → ℤ
  | [], block => block.toNat
  | (_, i) :: path, block =>
    if block > v.blockCount then 1 else followOnDisk path (v.entryOnDisk block i.toNat)

/-- What `find_data_block` returns. -/
def foundOnDisk (inode : Ext2File) (index : U32) : ℤ :=
  if index < 12 then (inode.iBlock index.toNat).toNat
  else
    match v.lookup index with
    | none => -v.errno.einval
    | some (slot, path) => v.followOnDisk path (inode.iBlock slot)

/-- The block with an index in a directory, as far as it can be loaded. -/
def dirBlock (node : Ext2Dir) (index : U32) : Option (List Byte) :=
  let blockNum := v.foundOnDisk node.toExt2File index
  if blockNum < 1 ∨ BitVec.ofInt 32 blockNum > v.blockCount then none
  else some (v.blockBytes (BitVec.ofInt 32 blockNum))

variable {v} {s : VolumeState σ}

theorem Readable.follow (hv : v.Readable) (path : List (Bool × U32)) (block : U32)
    {buffer : List Byte} (hs : v.Coherent s) (hlen : buffer.length = v.blockSize.toNat) :
    (v.follow path block buffer s).1 = v.followOnDisk path block ∧
      v.Coherent (v.follow path block buffer s).2 := by
  induction path generalizing block buffer s with
  | nil => exact ⟨rfl, hs⟩
  | cons first path ih =>
    obtain ⟨cache, i⟩ := first
    have hs' := hs.readBlock hv.fixed block buffer cache
    rw [follow_cons, followOnDisk]
    by_cases hgt : block > v.blockCount
    · have hneg := readBlock_of_gt (s := s) hgt buffer cache
      rw [if_pos hgt, indirect]
      dsimp only
      rw [if_pos hneg]
      exact ⟨rfl, hs'⟩
    · have hle := BitVec.not_lt.mp hgt
      obtain ⟨t, hread⟩ := v.indirect_fetchable
        (hs.fetchable hle (hv.passes block hle) (hv.serves block hle s.disk) cache) hlen i
      rw [← v.state_indirect _ _ i, hread] at hs'
      rw [if_neg hgt, hread]
      exact ih _ hs' (v.length_blockBytes block)

theorem Readable.findDataBlock (hv : v.Readable) (inode : Ext2File) (index : U32)
    (hs : v.Coherent s) : (v.findDataBlock inode index s).1 = v.foundOnDisk inode index ∧
      v.Coherent (v.findDataBlock inode index s).2 := by
  rw [foundOnDisk]
  by_cases hdirect : index < 12
  · rw [v.findDataBlock_direct inode s hdirect, if_pos hdirect]
    exact ⟨rfl, hs⟩
  · have hs' : v.Coherent { s with mallocs := s.mallocs + 1 } := hs.congr hv.fixed rfl
    rw [v.findDataBlock_eq inode s hdirect, if_neg hdirect]
    cases v.lookup index with
    | none => exact ⟨rfl, hs'⟩
    | some first => exact hv.follow _ _ hs' (v.length_mallocBlock _)

/-- **A block of a directory is loaded as it is on the disk.** -/
theorem Readable.loads (hv : v.Readable) (node : Ext2Dir) (cache : Bool) (frame : Frame) :
    (v.dirScan node cache frame).Loads (v.dirBlock node) v.Coherent where
  load j buffer t ht hlen := by
    obtain ⟨hfound, ht'⟩ := hv.findDataBlock node.toExt2File j ht
    rw [show (v.dirScan node cache frame).load j buffer t = v.loadDirBlock node cache j buffer t
      from rfl, loadDirBlock, dirBlock]
    dsimp only
    rw [hfound]
    by_cases hhole : v.foundOnDisk node.toExt2File j < 1
    · rw [if_pos hhole, if_pos (.inl hhole)]
      exact ⟨rfl, ht'⟩
    rw [if_neg hhole]
    have ht'' := ht'.readBlock hv.fixed (BitVec.ofInt 32 (v.foundOnDisk node.toExt2File j)) buffer
      cache
    by_cases hgt : BitVec.ofInt 32 (v.foundOnDisk node.toExt2File j) > v.blockCount
    · rw [if_pos (readBlock_of_gt hgt buffer cache), if_pos (Or.inr hgt)]
      exact ⟨rfl, ht''⟩
    · have hle := BitVec.not_lt.mp hgt
      obtain ⟨hcode, hbytes⟩ := v.readBlock_fetchable (ht'.fetchable hle (hv.passes _ hle)
        (hv.serves _ hle _) cache) hlen
      rw [if_neg (not_lt.mpr hcode), if_neg (not_or.mpr ⟨hhole, hgt⟩), hbytes]
      exact ⟨rfl, ht''⟩
  length j block hblock := by
    rw [dirBlock] at hblock
    split at hblock
    · cases hblock
    · cases hblock
      exact v.length_blockBytes _

end Ext2Volume

/-! ## Well-formed directories -/

/-- A record of a directory; with inode 0 it is unused. -/
structure DirEntry where
  inode : U32
  recLen : ℕ
  fileType : Byte
  name : List Byte

/-- A record on the disk.  Of an unused one only the length matters. -/
structure DirEntry.At (e : DirEntry) (byte : ℕ → Byte) (o : ℕ) : Prop where
  inode_eq : direntInode byte o = e.inode
  recLen_eq : (direntRecLen byte o).toNat = e.recLen
  recLen_ge : 8 ≤ e.recLen
  name_le : e.inode ≠ 0 → 8 + e.name.length ≤ e.recLen
  nameLen_eq : e.inode ≠ 0 → direntNameLen byte o = e.name.length
  name_eq : e.inode ≠ 0 → ∀ i (h : i < e.name.length), direntName byte o i = e.name[i]
  name_ne : e.inode ≠ 0 → 0 ∉ e.name
  fileType_eq : e.inode ≠ 0 → direntFileType byte o = e.fileType

/-- Records, one after the other, from an offset to the end of the block. -/
def Tiled (byte : ℕ → Byte) (blockSize : ℕ) : ℕ → List DirEntry → Prop
  | o, [] => o = blockSize
  | o, e :: entries => e.At byte o ∧ Tiled byte blockSize (o + e.recLen) entries

theorem Tiled.le {byte : ℕ → Byte} {blockSize o : ℕ} {entries : List DirEntry}
    (h : Tiled byte blockSize o entries) : o + 8 * entries.length ≤ blockSize := by
  induction entries generalizing o with
  | nil => exact Nat.le_of_eq h
  | cons e entries ih =>
    have hrest := ih h.2
    have hge := h.1.recLen_ge
    rw [List.length_cons]
    omega

theorem DirEntry.At.congr {e : DirEntry} {f g : ℕ → Byte} {o : ℕ} (h : e.At f o)
    (heq : ∀ p < o + e.recLen, g p = f p) : e.At g o := by
  have hge := h.recLen_ge
  have hword : ∀ p ≤ o + 4, le32 g p = le32 f p := fun p hp ↦ by
    rw [le32, le32, heq p (by omega), heq (p + 1) (by omega), heq (p + 2) (by omega),
      heq (p + 3) (by omega)]
  refine ⟨?_, ?_, hge, h.name_le, fun hlive ↦ ?_, fun hlive i hi ↦ ?_, h.name_ne, fun hlive ↦ ?_⟩
  · rw [direntInode, hword o (by omega)]
    exact h.inode_eq
  · rw [direntRecLen, le16, heq (o + 4) (by omega), heq (o + 4 + 1) (by omega)]
    exact h.recLen_eq
  · rw [direntNameLen, heq (o + 6) (by omega)]
    exact h.nameLen_eq hlive
  · have hle := h.name_le hlive
    rw [direntName, heq (o + 8 + i) (by omega)]
    exact h.name_eq hlive i hi
  · rw [direntFileType, heq (o + 7) (by omega)]
    exact h.fileType_eq hlive

theorem Tiled.congr {f g : ℕ → Byte} {blockSize o : ℕ} {entries : List DirEntry}
    (h : Tiled f blockSize o entries) (heq : ∀ p < blockSize, g p = f p) :
    Tiled g blockSize o entries := by
  induction entries generalizing o with
  | nil => exact h
  | cons e entries ih =>
    have hle := h.2.le
    exact ⟨h.1.congr fun p hp ↦ heq p (by omega), ih h.2⟩

/-- **A well-formed directory**: its blocks are those of the block map, and each is filled with
records. -/
structure WellFormedDir (v : Ext2Volume σ) (node : Ext2Dir) (dir : List (List DirEntry)) :
    Prop where
  isDir : node.isDir = true
  inode_ne : node.inode ≠ 0
  length_le : dir.length ≤ 12 + v.entries
  size_eq : node.size.toNat = dir.length * v.blockSize.toNat
  blocks_ge : dir.length ≤ (node.iBlocks / v.sectorsPerBlock).toNat
  pointers : 12 < dir.length → node.iBlock 12 < v.blockCount
  mapped : ∀ j < dir.length, 0 < v.mappedBlock node.toExt2File j ∧
    v.mappedBlock node.toExt2File j < v.blockCount
  tiled : ∀ j (h : j < dir.length), Tiled
    (fun p ↦ (v.blockBytes (v.mappedBlock node.toExt2File j)).getD p 0) v.blockSize.toNat 0 dir[j]

namespace Ext2Volume

variable {v : Ext2Volume σ} {node : Ext2Dir} {dir : List (List DirEntry)}

/-- The first twelve blocks and those of the single indirect block are found where they are. -/
theorem foundOnDisk_eq (inode : Ext2File) (index : U32) (hindex : index.toNat < 12 + v.entries)
    (hpointers : 12 ≤ index.toNat → inode.iBlock 12 ≤ v.blockCount) :
    v.foundOnDisk inode index = (v.mappedBlock inode index.toNat).toNat := by
  rw [foundOnDisk, mappedBlock, ext2Path]
  by_cases hdirect : index < 12
  · have hlt : index.toNat < 12 := hdirect
    rw [if_pos hdirect, if_pos hlt]
    rfl
  · have hge : ¬ index.toNat < 12 := hdirect
    have hsub : (index - 12).toNat = index.toNat - 12 := BitVec.toNat_sub_of_le (by bv_omega)
    rw [if_neg hdirect, v.lookup_single hdirect hindex, if_neg hge, if_pos hindex]
    dsimp only
    rw [followOnDisk, if_neg (BitVec.not_lt.mpr (hpointers (not_lt.mp hge))), followOnDisk, hsub]
    rfl

/-- The blocks of a well-formed directory. -/
theorem dirBlock_eq (h : WellFormedDir v node dir) {j : U32} (hj : j.toNat < dir.length) :
    v.dirBlock node j = some (v.blockBytes (v.mappedBlock node.toExt2File j.toNat)) := by
  have hle := h.length_le
  have hfound := foundOnDisk_eq node.toExt2File j (by omega) fun hge ↦
    BitVec.le_of_lt (h.pointers (by omega))
  obtain ⟨hpos, hlt⟩ := h.mapped j.toNat hj
  have hblock : BitVec.ofInt 32 (v.foundOnDisk node.toExt2File j) =
      v.mappedBlock node.toExt2File j.toNat := by
    rw [hfound, BitVec.ofInt_natCast, BitVec.ofNat_toNat, BitVec.setWidth_eq]
  rw [dirBlock, hblock, if_neg]
  rintro (hneg | hgt)
  · rw [hfound] at hneg
    have := BitVec.lt_def.mp hpos
    rw [show (0 : U32).toNat = 0 from rfl] at this
    omega
  · exact absurd hgt (BitVec.not_lt.mpr (BitVec.le_of_lt hlt))

/-- The records of a block, in the buffer. -/
theorem tiled_frame (h : WellFormedDir v node dir) {j : ℕ} (hj : j < dir.length) (frame : Frame) :
    Tiled (frame.byte (v.blockBytes (v.mappedBlock node.toExt2File j))) v.blockSize.toNat 0
      dir[j] := by
  refine (h.tiled j hj).congr fun p hp ↦ ?_
  have hlen := v.length_blockBytes (v.mappedBlock node.toExt2File j)
  have hlt := v.blockSize.isLt
  rw [frame.byte_eq (by omega) (by omega), List.getD_eq_getElem?_getD,
    List.getElem?_eq_getElem (by omega), Option.getD_some]

end Ext2Volume

/-! ### On a disk image -/

namespace DiskImage

variable (image : DiskImage) (blockCount : U32) {k : ℕ} (h : k ≤ 21)

theorem readable_toVolume (hfails : ∀ lba, image.fails lba = false) :
    (image.toVolume blockCount k h).Readable where
  fixed := image.fixed_toMedia
  passes b _ := image.passes_toVolume _ h b
  serves b _ disk := by
    refine List.all_eq_true.mpr fun i _ ↦ ?_
    rw [hfails]
    rfl

/-- Records on an image are records of a block. -/
theorem tiled_toVolume {b : U32} {o : ℕ} {entries : List DirEntry}
    (hb : (b.toNat + 1) * (image.toVolume blockCount k h).blockSize.toNat ≤ 2 ^ 41)
    (htiled : Tiled
      (fun p ↦ image.bytes (b.toNat * (image.toVolume blockCount k h).blockSize.toNat + p))
      (image.toVolume blockCount k h).blockSize.toNat o entries) :
    Tiled (fun p ↦ ((image.toVolume blockCount k h).blockBytes b).getD p 0)
      (image.toVolume blockCount k h).blockSize.toNat o entries := by
  refine htiled.congr fun p hp ↦ ?_
  rw [List.getD_eq_getElem?_getD, image.getElem?_blockBytes blockCount h hb hp, Option.getD_some]

/-- A byte of the buffer, when a block of the image is in it. -/
theorem byte_blockBytes (frame : Frame) {b : U32} {p : ℕ}
    (hb : (b.toNat + 1) * (image.toVolume blockCount k h).blockSize.toNat ≤ 2 ^ 41)
    (hp : p < (image.toVolume blockCount k h).blockSize.toNat) :
    frame.byte ((image.toVolume blockCount k h).blockBytes b) p =
      image.bytes (b.toNat * (image.toVolume blockCount k h).blockSize.toNat + p) := by
  have hlen := (image.toVolume blockCount k h).length_blockBytes b
  have hlt := (image.toVolume blockCount k h).blockSize.isLt
  have hget := image.getElem?_blockBytes blockCount h hb hp
  rw [List.getElem?_eq_getElem (by omega)] at hget
  rw [frame.byte_eq (by omega) (by omega)]
  exact Option.some.inj hget

end DiskImage

/-- A disk with a directory in its second kilobyte that holds itself, as `.` and as `..`. -/
def dotImage : DiskImage where
  bytes p :=
    if p < 1024 then 0
    else [2, 0, 0, 0, 12, 0, 1, 2, 0x2e, 0, 0, 0, 2, 0, 0, 0, 0xf4, 3, 2, 2, 0x2e, 0x2e].getD
      (p - 1024) 0
  fails _ := false

/-- A volume of forty such blocks. -/
def dotVolume : Ext2Volume Unit := dotImage.toVolume 40 0 zero_le_logBlockSize

/-- The directory. -/
def dotDir : Ext2Dir := ⟨⟨1024, fun i ↦ if i = 0 then 1 else 0⟩, true, 2, 2⟩

/-- Its records. -/
def dotEntries : List (List DirEntry) := [[⟨2, 12, 2, [0x2e]⟩, ⟨2, 1012, 2, [0x2e, 0x2e]⟩]]

/-- On any disk that begins like this one it is well formed, whatever else its inode says. -/
theorem wellFormed_dots (image : DiskImage) (himage : ∀ p < 2048, image.bytes p = dotImage.bytes p)
    {iBlock : ℕ → U32} (hblock : iBlock 0 = 1) {iBlocks : U32} (hblocks : 2 ≤ iBlocks.toNat) :
    WellFormedDir (image.toVolume 40 0 (by decide)) ⟨⟨1024, iBlock⟩, true, 2, iBlocks⟩
      dotEntries := by
  set v := image.toVolume 40 0 (by decide) with hv
  have hbs : v.blockSize.toNat = 1024 := v.toNat_blockSize
  have hmapped : v.mappedBlock ⟨1024, iBlock⟩ 0 = 1 := by
    rw [Ext2Volume.mappedBlock, ext2Path, if_pos (by decide)]
    exact hblock
  have hdot : DirEntry.At ⟨2, 12, 2, [0x2e]⟩ (fun p ↦ dotImage.bytes (1 * 1024 + p)) 0 := by
    constructor <;> decide
  have hdotdot : DirEntry.At ⟨2, 1012, 2, [0x2e, 0x2e]⟩
      (fun p ↦ dotImage.bytes (1 * 1024 + p)) 12 := by
    constructor <;> decide
  have htiled : Tiled (fun p ↦ dotImage.bytes (1 * 1024 + p)) 1024 0 dotEntries[0] :=
    ⟨hdot, hdotdot, rfl⟩
  have hinode : (2 : U32) ≠ 0 := by decide
  refine ⟨rfl, hinode, Nat.le_add_right_of_le (by decide), ?_, ?_, fun h ↦ absurd h (by decide),
    fun j hj ↦ ?_, fun j hj ↦ ?_⟩
  · rw [hbs]
    rfl
  · have hsectors := v.sectorsPerBlock_mul
    rw [BitVec.toNat_udiv, show v.sectorsPerBlock.toNat = 2 by omega]
    exact (Nat.one_le_div_iff (by decide)).mpr hblocks
  · obtain rfl : j = 0 := Nat.lt_one_iff.mp hj
    rw [hmapped]
    exact ⟨(by decide : (0 : U32) < 1), (by decide : (1 : U32) < 40)⟩
  · obtain rfl : j = 0 := Nat.lt_one_iff.mp hj
    rw [hmapped]
    refine image.tiled_toVolume 40 (by decide) ?_ ?_
    · rw [show (image.toVolume 40 0 _).blockSize.toNat = 1024 from hbs]
      decide
    · rw [show (image.toVolume 40 0 _).blockSize.toNat = 1024 from hbs]
      exact htiled.congr fun p hp ↦ himage (1 * 1024 + p) (by omega)

theorem wellFormed_dotDir : WellFormedDir dotVolume dotDir dotEntries :=
  wellFormed_dots dotImage (fun _ _ ↦ rfl) rfl (by decide)

end Borrrdex
