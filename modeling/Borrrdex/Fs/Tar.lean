import Borrrdex.Fs.ResolvePath
import Borrrdex.Kstd.Strncmp
import Borrrdex.Lib.Splice

/-!
# Archives

A `tar_volume` is made of an archive in memory.  A first pass over the headers counts them, and the
entries of the root, and a second one makes the nodes; each goes from a header to the next by the
size it finds there, and `make_node` takes the name of an entry apart where it is, while the second
pass is still reading.

What both passes do to memory is recorded: the blocks that are read, the inodes that are given out,
and for each directory the stores into its array of children, next to the size of that array.

The counters of the source are machine integers of several widths.  An archive is mapped into the
kernel's window of two gigabytes, so that none of them overflows (`TarImage.size_le`).
-/

set_option autoImplicit false

namespace Borrrdex

open Splice

namespace Tar

/-- `FS_NODE_FILE`. -/
def fsNodeFile : U32 := 0x8000#32

/-- `TAR_TYPE_FILE`. -/
def tarTypeFile : Byte := 0x30

/-- `TAR_TYPE_LINK_SYMBOLIC`. -/
def tarTypeLinkSymbolic : Byte := 0x32

/-- `TAR_TYPE_DIRECTORY`. -/
def tarTypeDirectory : Byte := 0x35

/-- `oct_to_dec`, with `n` read so far. -/
def octToDecFrom : ℕ → ℕ → List Byte → ℕ
  | 0, n, _ => n
  | _ + 1, n, [] => n
  | size + 1, n, c :: str =>
    if c = 0 then n else octToDecFrom size (n <<< 3 ||| ((c - 0x30) &&& 7).toNat) str

/-- `oct_to_dec`. -/
def octToDec (str : List Byte) (size : ℕ) : ℕ := octToDecFrom size 0 str

/-- `tar_flags_to_fs`. -/
def tarFlagsToFs (type : Byte) : U32 :=
  if type = tarTypeDirectory then fsNodeDirectory
  else if type = tarTypeLinkSymbolic then fsNodeSymlink
  else fsNodeFile

/-! ## Headers

Memory is the list of its bytes from the start of the archive on. -/

/-- `_blocks[i].ustar.name`, to the null that ends it. -/
def nameAt (mem : List Byte) (i : ℕ) : List Byte := cString (mem.drop (512 * i))

/-- `_blocks[i].ustar.uid`, as a number. -/
def uidAt (mem : List Byte) (i : ℕ) : ℕ := octToDec (mem.drop (512 * i + 108)) 8

/-- `_blocks[i].ustar.size`, as a number. -/
def sizeAt (mem : List Byte) (i : ℕ) : ℕ := octToDec (mem.drop (512 * i + 124)) 12

/-- `_blocks[i].ustar.type`. -/
def typeAt (mem : List Byte) (i : ℕ) : Byte := mem.getD (512 * i + 156) 0

/-- `get_block_count`. -/
def getBlockCount (size : ℕ) : ℕ := (size + 512 - 1) / 512

/-- The blocks behind a header. -/
def blocksAt (mem : List Byte) (i : ℕ) : ℕ := getBlockCount (sizeAt mem i)

theorem octToDecFrom_lt {size k n : ℕ} (str : List Byte) (hn : n < 8 ^ k) :
    octToDecFrom size n str < 8 ^ (k + size) := by
  induction size generalizing k n str with
  | zero => exact hn
  | succ size ih =>
    have hstep : n < 8 ^ (k + (size + 1)) :=
      hn.trans_le (Nat.pow_le_pow_right (by decide) (Nat.le_add_right k _))
    cases str with
    | nil => exact hstep
    | cons c str =>
      rw [octToDecFrom]
      split
      · exact hstep
      · have hdigit : ((c - 0x30) &&& 7).toNat < 2 ^ 3 := by
          rw [BitVec.toNat_and]
          exact Nat.lt_succ_of_le Nat.and_le_right
        have hnext : n <<< 3 ||| ((c - 0x30) &&& 7).toNat < 8 ^ (k + 1) := by
          rw [← Nat.shiftLeft_add_eq_or_of_lt hdigit, Nat.shiftLeft_eq, Nat.pow_succ]
          omega
        have hrest := ih str hnext
        rwa [show k + 1 + size = k + (size + 1) by omega] at hrest

/-- A size has 36 bits. -/
theorem sizeAt_lt (mem : List Byte) (i : ℕ) : sizeAt mem i < 2 ^ 36 := by
  have hlt : sizeAt mem i < 8 ^ (0 + 12) := octToDecFrom_lt _ Nat.one_pos
  exact hlt.trans_eq (by norm_num)

/-! ## Nodes -/

/-- The children of a directory: the size of the array, what was in the memory it got, and the
stores into it, the last one first. -/
structure Children where
  capacity : ℕ
  stale : ℕ → ℕ
  stores : List (ℕ × ℕ)

/-- `children[e]`. -/
def Children.get (c : Children) (e : ℕ) : ℕ := (c.stores.lookup e).getD (c.stale e)

/-- `children[e] = inode`. -/
def Children.store (c : Children) (e inode : ℕ) : Children :=
  { c with stores := (e, inode) :: c.stores }

/-- `tar_node`.  `name` is what is in the array up to a null, and `header` the index of a block. -/
structure TarNode where
  name : List Byte
  header : Option ℕ
  parent : ℕ
  entryCount : ℕ
  children : Children
  inode : ℕ
  uid : ℕ
  flags : U32
  size : ℕ
  size_lt : size < 2 ^ 36
  name_length : name.length ≤ 256
  name_ne_zero : ∀ c ∈ name, c ≠ 0

/-- A node of the array `new tar_node[_node_count]`. -/
def TarNode.fresh : TarNode where
  name := []
  header := none
  parent := 0
  entryCount := 0
  children := ⟨0, fun _ ↦ 0, []⟩
  inode := 0
  uid := 0
  flags := 0
  size := 0
  size_lt := by decide
  name_length := by decide
  name_ne_zero _ hc := absurd hc List.not_mem_nil

/-- `is_dir`. -/
def TarNode.isDir (n : TarNode) : Bool := n.flags &&& fsNodeType = fsNodeDirectory

/-- The memory, the nodes, and what was done so far. -/
structure TarState where
  mem : List Byte
  nodes : ℕ → TarNode
  nextNode : ℕ
  blocksRead : List ℕ
  inodes : List ℕ

namespace TarState

/-- `_nodes[inode]` changed. -/
def update (s : TarState) (inode : ℕ) (f : TarNode → TarNode) : TarState :=
  { s with nodes := Function.update s.nodes inode (f (s.nodes inode)) }

/-- A block is looked at. -/
def look (s : TarState) (i : ℕ) : TarState := { s with blocksRead := i :: s.blocksRead }

/-- `_next_node++`. -/
def takeNode (s : TarState) : ℕ × TarState :=
  (s.nextNode, { s with nextNode := s.nextNode + 1, inodes := s.nextNode :: s.inodes })

/-- `_nodes[dir].children[e] = inode`. -/
def store (s : TarState) (dir e inode : ℕ) : TarState :=
  s.update dir fun n ↦ { n with children := n.children.store e inode }

end TarState

/-- The loop of `make_node` on the parts of a name: where the last one is, and the buffer. -/
def partLoop : ℕ → ℕ → Strtok → ℕ × List Byte
  | 0, name, st => (name, st.buf)
  | rounds + 1, name, st =>
    match st.token with
    | none => (name, st.buf)
    | some part => partLoop rounds part (strtokR none st.saved slash st.buf)

/-- A name is taken apart: where its last part is, and what becomes of the buffer. -/
def takeApart (buf : List Byte) : ℕ × List Byte :=
  partLoop (buf.length + 1) 0 (strtokR (some 0) none slash buf)

/-- The memory when `make_node` has been at block `i`. -/
def cut (mem : List Byte) (i : ℕ) : List Byte :=
  mem.take (512 * i) ++ (takeApart (mem.drop (512 * i))).2

/-- What `strncpy(n->name, name, 256)` leaves in `n->name`. -/
def partAt (mem : List Byte) (i : ℕ) : List Byte :=
  let (name, buf) := takeApart (mem.drop (512 * i))
  (cString (buf.drop name)).take 256

/-- `make_node`, for the header in block `i`. -/
def TarState.makeNode (s : TarState) (i inode parent : ℕ) : TarState :=
  { (s.look i).update inode fun n ↦
    { n with
      parent := parent
      header := some i
      inode := inode
      uid := uidAt s.mem i
      flags := tarFlagsToFs (typeAt s.mem i)
      name := partAt s.mem i
      size := sizeAt (cut s.mem i) i
      size_lt := sizeAt_lt _ _
      name_length := List.length_take_le _ _
      name_ne_zero := fun c hc ↦ by
        have hc := List.mem_takeWhile_imp (List.mem_of_mem_take hc)
        simpa using hc }
    with mem := cut s.mem i }

/-! ## The second pass -/

/-- The first loop of `read_directory`, from block `i` on; `dir` is the header of the directory.  It
returns the number of entries, and leaves the blocks that were looked at. -/
def countEntries (blockCount dir i entryCount : ℕ) (s : TarState) : ℕ × TarState :=
  if _h : i < blockCount then
    let s := s.look i
    if nameAt s.mem i ≠ nameAt s.mem dir ∨ nameAt s.mem i = [] then (entryCount, s)
    else if s.mem.getD (512 * i + min (nameAt s.mem dir).length 100) 0 ≠ 0x2F then (entryCount, s)
    else countEntries blockCount dir (i + blocksAt s.mem i + 1) (entryCount + 1) s
  else (entryCount, s)
termination_by blockCount - i

/-- Its second loop: where it stops, and the nodes. -/
def addEntries (blockCount dirInode entryCount i e : ℕ) (s : TarState) : ℕ × TarState :=
  if _h : i < blockCount ∧ e < entryCount then
    let (inode, s) := s.takeNode
    let s := (s.makeNode i inode dirInode).store dirInode e inode
    addEntries blockCount dirInode entryCount (i + blocksAt s.mem i + 1) (e + 1) s
  else (i, s)
termination_by blockCount - i

/-- `read_directory`; `stale` is what is in the memory that `malloc` returns. -/
def readDirectory (blockCount : ℕ) (stale : ℕ → ℕ) (blockIndex parent : ℕ) (s : TarState) :
    ℕ × TarState :=
  let (dirInode, s) := s.takeNode
  let s := s.makeNode blockIndex dirInode parent
  let i := blockIndex + blocksAt s.mem blockIndex
  let (entryCount, s) := countEntries blockCount blockIndex i 0 s
  let s := s.update dirInode fun n ↦
    { n with entryCount := entryCount, children := ⟨entryCount, stale, []⟩ }
  addEntries blockCount dirInode entryCount (i + 1) 0 s

theorem le_addEntries (blockCount dirInode entryCount i e : ℕ) (s : TarState) :
    i ≤ (addEntries blockCount dirInode entryCount i e s).1 := by
  fun_induction addEntries blockCount dirInode entryCount i e s with
  | case1 i e s h inode s' hs s'' ih => omega
  | case2 => exact le_rfl

/-- A directory is behind its header. -/
theorem lt_readDirectory (blockCount : ℕ) (stale : ℕ → ℕ) (blockIndex parent : ℕ) (s : TarState) :
    blockIndex < (readDirectory blockCount stale blockIndex parent s).1 :=
  (Nat.lt_succ_of_le (Nat.le_add_right _ _)).trans_le (le_addEntries ..)

/-- The second loop of the constructor, from block `i` and child `e` on; `stale` is as above, for
each directory.  It returns the number of children of the root. -/
def secondPass (blockCount : ℕ) (stale : ℕ → ℕ → ℕ) (i e : ℕ) (s : TarState) : ℕ × TarState :=
  if _h : i < blockCount then
    let s := s.look i
    -- `header` is a copy
    let blocks := blocksAt s.mem i
    if nameAt s.mem i = [] then (e, s)
    else if typeAt s.mem i = tarTypeDirectory then
      let s := s.store 0 e s.nextNode
      let r := readDirectory blockCount (stale s.nextNode) i 0 s
      secondPass blockCount stale (r.1 + blocks + 1) (e + 1) r.2
    else if typeAt s.mem i = tarTypeFile then
      let (inode, s) := s.takeNode
      let s := (s.makeNode i inode 0).store 0 e inode
      secondPass blockCount stale (i + blocks + 1) (e + 1) s
    else secondPass blockCount stale (i + blocks + 1) (e + 1) s
  else (e, s)
termination_by blockCount - i
decreasing_by
  · exact Nat.sub_lt_sub_left _h
      (Nat.lt_succ_of_le ((lt_readDirectory ..).le.trans (Nat.le_add_right _ _)))
  · omega
  · omega

/-! ## The constructor -/

/-- An archive in memory: its bytes and those behind it, and its size.  The kernel maps it between
`KERNEL_VIRTUAL_BASE` and the end of the address space. -/
structure TarImage where
  bytes : List Byte
  size : ℕ
  size_le_length : size ≤ bytes.length
  size_le : size ≤ 0x80000000

/-- `_block_count`. -/
def TarImage.blockCount (image : TarImage) : ℕ := image.size / 512

/-- Whether the first pass counts a header as an entry of the root.  It looks at a copy of the
block, and `behind` is what comes behind the copy on the stack. -/
def countsAtRoot (bytes behind : List Byte) (i : ℕ) : Bool :=
  let name := cString ((bytes.drop (512 * i)).take 512 ++ behind)
  match name.findIdx? (· == 0x2F) with
  | none => true
  | some slashPos => typeAt bytes i = tarTypeDirectory ∧ slashPos + 1 = min name.length 100

/-- What the first loop of the constructor counts, and the blocks it looks at. -/
structure Counts where
  nodeCount : ℕ
  entryCount : ℕ
  blocksRead : List ℕ

/-- The first loop of the constructor, from block `i` on. -/
def firstPass (blockCount : ℕ) (bytes behind : List Byte) (i : ℕ) (c : Counts) : Counts :=
  if _h : i < blockCount then
    firstPass blockCount bytes behind (i + blocksAt bytes i + 1)
      { nodeCount := c.nodeCount + 1
        entryCount := if countsAtRoot bytes behind i then c.entryCount + 1 else c.entryCount
        blocksRead := i :: c.blocksRead }
  else c
termination_by blockCount - i

/-- `tar_volume`, and the record of its construction. -/
structure TarVolume where
  nodeCount : ℕ
  state : TarState

/-- The node of the volume, with an array of `entryCount` children. -/
def volumeNode (image : TarImage) (entryCount : ℕ) (stale : ℕ → ℕ) : TarNode :=
  { TarNode.fresh with
    flags := fsNodeDirectory
    size := image.size
    size_lt := image.size_le.trans_lt (by decide)
    entryCount := entryCount
    children := ⟨entryCount, stale, []⟩ }

/-- The constructor of `tar_volume`. -/
def TarVolume.construct (image : TarImage) (behind : List Byte) (stale : ℕ → ℕ → ℕ) : TarVolume :=
  let counts := firstPass image.blockCount image.bytes behind 0 ⟨1, 0, []⟩
  let s : TarState :=
    { mem := image.bytes
      nodes := Function.update (fun _ ↦ TarNode.fresh) 0
        (volumeNode image counts.entryCount (stale 0))
      nextNode := 1
      blocksRead := counts.blocksRead
      inodes := [] }
  let (e, s) := secondPass image.blockCount stale 0 0 s
  { nodeCount := counts.nodeCount
    state := s.update 0 fun n ↦ { n with entryCount := e } }

/-! ## The volume -/

namespace TarVolume

/-- `_nodes[inode]`. -/
def node (v : TarVolume) (inode : ℕ) : TarNode := v.state.nodes inode

/-- The loop of `find_dir`, on the children from `e` on: the inode of the child. -/
def findLoop (v : TarVolume) (dir : TarNode) (name : List Byte) : ℕ → ℕ → Option ℕ
  | 0, _ => none
  | rounds + 1, e =>
    let inode := dir.children.get e
    if (strncmp (terminated (v.node inode).name) (terminated name) 256).1 = 0 then some inode
    else findLoop v dir name rounds (e + 1)

end TarVolume

/-- What `find_dir` returns: a node of the volume, or the root of all file systems. -/
inductive Found
  | node (inode : ℕ)
  | root
deriving DecidableEq

/-- `"."`. -/
def dot : List Byte := [0x2E]

/-- `".."`. -/
def dotDot : List Byte := [0x2E, 0x2E]

/-- `find_dir`, on the node `inode`. -/
def TarVolume.findDir (v : TarVolume) (inode : ℕ) (name : List Byte) : Option Found :=
  let node := v.node inode
  if !node.isDir then none
  else if (strncmp (terminated dot) (terminated name) 1).1 = 0 then some (.node inode)
  else if (strncmp (terminated dotDot) (terminated name) 1).1 = 0 then
    if inode = 0 then some .root else some (.node node.parent)
  else (v.findLoop node name node.entryCount 0).map .node

/-- `read`, on the node `inode`: the result, and the buffer.  `eisdir` is the number of `EISDIR`. -/
def TarVolume.read (v : TarVolume) (eisdir : ℕ) (inode : ℕ) (off size : U64) (buf : List Byte) :
    ℤ × List Byte :=
  let node := v.node inode
  if node.isDir then (-eisdir, buf)
  else if off.toNat > node.size ∨ size = 0 then (0, buf)
  else
    let start := 512 * node.header.getD 0 + 512 + off.toNat
    (size.toInt, splice buf 0 ((List.range size.toNat).map fun i ↦ v.state.mem.getD (start + i) 0))

end Tar

end Borrrdex
