import Borrrdex.Proc.FdTable
import Borrrdex.Syscalls.Handlers

/-!
# Processes, their descriptors, and the nodes these refer to

The part of the kernel behind the descriptor calls: the live processes with their tables, and of
every node the handle count, which `fs_node::open` and `sys_dup` raise and `close` lowers.  It is
put together as the `Services` that the handlers of `Handlers` run on.  What they need besides —
path lookup, the contents of files, user memory — comes from an `Env`, which may be a different one
for every call; of a lookup it says which nodes of ext2 were read in and which the cache of nodes
threw out.

Nodes and handles are numbered in the order they are made, and the numbers are not used again.
After `kernel_panic` the state has `halted` set, and what else is in it means nothing.
-/

set_option autoImplicit false

namespace Borrrdex

/-- The classes of nodes, by what `open` and `close` do with the handle count. -/
inductive NodeKind
  /-- The root, the devices and the ends of a pty, whose `close` is `fs_node::close`. -/
  | device
  /-- `ext2_node`; `clean_node` does nothing. -/
  | ext2
  /-- `tar_node`, whose `close` leaves the count alone. -/
  | tar
  /-- `unix_pipe`, with `_other_end`. -/
  | pipeEnd (other : ℕ)
deriving DecidableEq

/-- The node is an end of a pipe. -/
def NodeKind.isPipe : NodeKind → Bool
  | .pipeEnd _ => true
  | _ => false

/-- What `open` and `close` use of a node. -/
structure CountedNode where
  kind : NodeKind
  handleCount : U32
  widowed : Bool
  deleted : Bool

/-- A node just made. -/
def CountedNode.new (kind : NodeKind) : CountedNode where
  kind := kind
  handleCount := 0
  widowed := false
  deleted := false

/-- The processes and the nodes. -/
structure Descriptors where
  live : Finset ℕ
  tables : ℕ → FdTable ℕ
  current : ℕ
  counted : ℕ → Option CountedNode
  nextNode : ℕ
  nextFd : ℕ
  halted : Option Halt

/-- The kernel, with what the descriptor calls work on. -/
abbrev Kernel := KernelState Descriptors

/-! ## Nodes -/

/-- `_handle_count++`. -/
def addHandleTo (counted : ℕ → Option CountedNode) (n : ℕ) : ℕ → Option CountedNode :=
  Function.update counted n
    ((counted n).map fun node ↦ { node with handleCount := node.handleCount + 1 })

/-- `node->close()`.  A node that has been deleted is left as it is; the call goes through freed
memory. -/
def closeNode (counted : ℕ → Option CountedNode) (n : ℕ) : ℕ → Option CountedNode :=
  match counted n with
  | none => counted
  | some node =>
    let count := node.handleCount - 1
    if node.deleted then counted
    else match node.kind with
      | .tar => counted
      | .device | .ext2 => Function.update counted n (some { node with handleCount := count })
      | .pipeEnd other =>
        if count = 0 then
          let widowed := Function.update counted other
            ((counted other).map fun o ↦ { o with widowed := true })
          Function.update widowed n (some { node with handleCount := 0, deleted := true })
        else Function.update counted n (some { node with handleCount := count })

namespace Descriptors

/-- There is a node with this number. -/
def Alive (d : Descriptors) (n : ℕ) : Prop := ∃ node, d.counted n = some node ∧ node.deleted = false

instance (d : Descriptors) (n : ℕ) : Decidable (d.Alive n) :=
  decidable_of_iff ((d.counted n).any fun node ↦ !node.deleted) <| by
    simp only [Alive, Option.any_eq_true, Bool.not_eq_true']

/-- Make nodes. -/
def makeNodes (d : Descriptors) (kinds : List NodeKind) : Descriptors :=
  { d with
    counted := fun n ↦
      if n < d.nextNode then d.counted n else kinds[n - d.nextNode]?.map CountedNode.new
    nextNode := d.nextNode + kinds.length }

/-- The slots of all live processes. -/
def slots (d : Descriptors) : ℕ := ∑ p ∈ d.live, (d.tables p).length

/-- The tables together fit into the kernel heap with one slot more. -/
def room (d : Descriptors) : Bool := d.slots < FdTable.maxSlots

end Descriptors

namespace KernelState

/-- The table of the calling process. -/
def table (k : Kernel) : FdTable ℕ := k.rest.tables k.rest.current

/-- `kernel_panic`; the first one counts. -/
def halt (k : Kernel) (e : Halt) : Kernel :=
  { k with rest := { k.rest with halted := k.rest.halted.or (some e) } }

/-- `fs::close` of a handle, if there is one. -/
def close (k : Kernel) (handle : Option ℕ) : Kernel :=
  match handle with
  | none => k
  | some h =>
    { k with rest := { k.rest with counted := closeNode k.rest.counted (k.handles h).node } }

/-- Give the calling process another table. -/
def setTable (k : Kernel) (t : FdTable ℕ) : Kernel :=
  { k with rest := { k.rest with tables := Function.update k.rest.tables k.rest.current t } }

/-- Carry out what an operation on the table of the calling process came to. -/
def settle (k : Kernel) : Except Halt (FdOutcome ℕ) → U32 × Kernel
  | .error e => (1, k.halt e)
  | .ok o => (o.ret, (k.close o.closed).setTable o.table)

/-- `proc->allocate_file_desc(handle)`. -/
def allocateFileDesc (k : Kernel) (handle : Option ℕ) : U32 × Kernel :=
  k.settle (FdTable.allocateFileDesc k.rest.room k.table handle)

/-- `proc->replace_file_desc(fd, handle)`. -/
def replaceFileDesc (k : Kernel) (fd : U32) (handle : ℕ) : U32 × Kernel :=
  k.settle (FdTable.replaceFileDesc k.rest.room k.table fd handle)

/-- `proc->destroy_file_desc(fd)`. -/
def destroyFileDesc (k : Kernel) (fd : U32) : U32 × Kernel :=
  k.settle (FdTable.destroyFileDesc k.table fd)

/-- `new fs_fd_t`, filled in. -/
def newFd (k : Kernel) (fd : FsFd) : ℕ × Kernel :=
  (k.rest.nextFd,
    { k with
      handles := Function.update k.handles k.rest.nextFd fd
      rest := { k.rest with nextFd := k.rest.nextFd + 1 } })

/-- `fs_node::add_handle`. -/
def addHandle (k : Kernel) (n : ℕ) : Kernel :=
  { k with rest := { k.rest with counted := addHandleTo k.rest.counted n } }

/-- `fs_node::open`. -/
def openNode (k : Kernel) (n : ℕ) (flags : U32) : ℕ × Kernel :=
  let (h, k) := k.newFd { node := n, pos := 0, mode := flags }
  (h, k.addHandle n)

/-- `proc::destroy_all_files` for the calling process, which is then taken off the list of
processes. -/
def endProcess (k : Kernel) : Kernel :=
  let k' := k.table.foldl close k
  { k' with
    rest := { k'.rest with
      tables := Function.update k'.rest.tables k'.rest.current []
      live := k'.rest.live.erase k'.rest.current } }

/-- A transfer through a handle: `fs::read` and `fs::write`, given what the node returned. -/
def advance (k : Kernel) (h : ℕ) (ret : ℤ) : Kernel :=
  if 0 < ret then
    k.setFd h { k.handles h with pos := (k.handles h).pos + BitVec.ofInt 64 ret }
  else k

end KernelState

/-! ## The services -/

/-- What a path lookup came to. -/
structure Lookup where
  found : Option ℕ
  /-- How many nodes `ext2_volume::find_dir` made. -/
  readIn : ℕ
  /-- The nodes its cache deleted. -/
  evicted : List ℕ
  /-- The nodes as `stat` shows them now. -/
  nodes : ℕ → FsNode

/-- What is around the descriptors, for one call. -/
structure Env where
  checkUsermodePointer : U64 → U64 → Kernel → Bool
  userString : U64 → Kernel → List Byte
  resolvePath : List Byte → Bool → Kernel → Lookup
  nodeRead : ℕ → U64 → U64 → Kernel → ℤ
  nodeWrite : ℕ → U64 → U64 → Kernel → ℤ
  nodeIoctl : ℕ → U64 → U64 → Kernel → ℤ
  allocateAnonymousVmo : U64 → U64 → Bool → Kernel → Option U64
  mapFramebuffer : Kernel → Option U64
  videoMode : Kernel → VideoMode
  systemUptime : Kernel → U64
  ticks : Kernel → U32
  frequency : Kernel → U32

namespace KernelState

/-- The number of the node `fs::get_root` returns. -/
def root : ℕ := 0

/-- Only nodes of ext2 are in the cache. -/
def evict (d : Descriptors) (evicted : List ℕ) : Descriptors :=
  { d with
    counted := fun n ↦
      (d.counted n).map fun node ↦
        if n ∈ evicted ∧ node.kind = .ext2 then { node with deleted := true } else node }

/-- The kernel after a lookup. -/
def lookedUp (k : Kernel) (l : Lookup) : Kernel :=
  { k with
    nodes := l.nodes
    rest := evict (k.rest.makeNodes (List.replicate l.readIn .ext2)) l.evicted }

/-- `fs::resolve_path`: a node, or nothing. -/
def resolvePath (env : Env) (path : List Byte) (follow : Bool) (k : Kernel) : Option ℕ × Kernel :=
  let l := env.resolvePath path follow k
  let k' := k.lookedUp l
  (l.found.filter fun n ↦ k'.rest.Alive n, k')

/-- `new pty`: its worker file, and after it its controller file. -/
def grantPty (k : Kernel) : ℕ × Kernel :=
  (k.rest.nextNode, { k with rest := k.rest.makeNodes [.device, .device] })

/-- `unix_pipe::create_pipe`. -/
def createPipe (k : Kernel) : (ℕ × ℕ) × Kernel :=
  let n := k.rest.nextNode
  ((n, n + 1), { k with rest := k.rest.makeNodes [.pipeEnd (n + 1), .pipeEnd n] })

end KernelState

/-- The services of the kernel. -/
def Env.services (env : Env) : Services Descriptors where
  checkUsermodePointer := env.checkUsermodePointer
  getFileDesc fd k := (FdTable.getFileDesc k.table fd).toOption.join
  allocateFileDesc h := fun k ↦ k.allocateFileDesc (some h)
  replaceFileDesc fd h := fun k ↦ k.replaceFileDesc fd h
  destroyFileDesc fd := fun k ↦ k.destroyFileDesc fd
  fileDescCount k := FdTable.fileDescCount k.table
  newFd fd := fun k ↦ k.newFd fd
  addHandle n := fun k ↦ ((), k.addHandle n)
  userString := env.userString
  getRoot _ := KernelState.root
  resolvePath path follow := KernelState.resolvePath env path follow
  fsOpen n flags := fun k ↦ ((k.openNode n flags).1, (k.openNode n flags).2)
  nodeOpen n flags := fun k ↦ k.openNode n flags
  fsRead h size buf := fun k ↦ (env.nodeRead h size buf k, k.advance h (env.nodeRead h size buf k))
  fsWrite h size buf := fun k ↦
    (env.nodeWrite h size buf k, k.advance h (env.nodeWrite h size buf k))
  ioctl h cmd arg := fun k ↦ (env.nodeIoctl h cmd arg k, k)
  endProcess := fun k ↦ ((), k.endProcess)
  logInfo _ := fun k ↦ ((), k)
  allocateAnonymousVmo size hint fixed := fun k ↦ (env.allocateAnonymousVmo size hint fixed k, k)
  mapFramebuffer := fun k ↦ (env.mapFramebuffer k, k)
  videoMode := env.videoMode
  grantPty := fun k ↦ k.grantPty
  openWorker p := fun k ↦ k.openNode p 0
  openController p := fun k ↦ k.openNode (p + 1) 0
  systemUptime := env.systemUptime
  ticks := env.ticks
  frequency := env.frequency
  createPipe := fun k ↦ k.createPipe

/-! ## Runs -/

/-- What can happen: a live process makes a system call, a process is started, or one is ended from
outside. -/
inductive KernelMove
  | call (p : ℕ) (env : Env) (call : Syscall) (regs : RegisterContext)
  | spawn (p : ℕ) (nullDev logDev : Option ℕ)
  | kill (p : ℕ)

namespace KernelState

/-- Process `p` is running. -/
def switchTo (k : Kernel) (p : ℕ) : Kernel := { k with rest := { k.rest with current := p } }

/-- `proc->allocate_file_desc(fs::open(dev, 0))`, or of a null pointer if there is no such
device. -/
def openStandard (k : Kernel) (dev : Option ℕ) : Kernel :=
  match dev with
  | none => (k.allocateFileDesc none).2
  | some n =>
    let (h, k) := k.openNode n 0
    (k.allocateFileDesc (some h)).2

/-- A new process, with an empty table. -/
def enroll (k : Kernel) (p : ℕ) : Kernel :=
  { k with
    rest := { k.rest with
      live := insert p k.rest.live
      tables := Function.update k.rest.tables p []
      current := p } }

/-- The descriptors `create_elf_process` sets up for a new process. -/
def spawn (k : Kernel) (p : ℕ) (nullDev logDev : Option ℕ) : Kernel :=
  (((k.enroll p).openStandard nullDev).openStandard logDev).openStandard logDev

/-- One step of the system, while it runs. -/
def step (abi : SysAbi) (k : Kernel) : KernelMove → Option Kernel
  | .call p env call regs =>
    if k.rest.halted = none ∧ p ∈ k.rest.live then
      some ((call.handler abi env.services regs).final (k.switchTo p))
    else none
  | .spawn p nullDev logDev =>
    if k.rest.halted = none ∧ p ∉ k.rest.live ∧ (∀ n ∈ nullDev, k.rest.Alive n) ∧
        ∀ n ∈ logDev, k.rest.Alive n then
      some (k.spawn p nullDev logDev)
    else none
  | .kill p =>
    if k.rest.halted = none ∧ p ∈ k.rest.live then some (k.switchTo p).endProcess else none

/-- The kernel has been started: there are the root and some other nodes, and no process has a
descriptor. -/
structure Booted (k : Kernel) : Prop where
  live : k.rest.live = ∅
  halted : k.rest.halted = none
  root : k.rest.counted root = some (CountedNode.new .device)
  counted : ∀ n node, k.rest.counted n = some node →
    n < k.rest.nextNode ∧ node.deleted = false ∧ node.handleCount = 0 ∧ node.kind.isPipe = false

/-- The states of runs all of whose steps satisfy `P`. -/
inductive Reaches (abi : SysAbi) (P : Kernel → KernelMove → Prop) : Kernel → Prop
  | boot {k : Kernel} (h : Booted k) : Reaches abi P k
  | step {k k' : Kernel} {mv : KernelMove} (h : Reaches abi P k) (hP : P k mv)
      (hs : step abi k mv = some k') : Reaches abi P k'

end KernelState

end Borrrdex
