import Borrrdex.Storage.Device
import Borrrdex.Syscalls.Mmap

/-!
# The system call handlers

All twenty-nine handlers of the table in `syscalls.cpp`.  What they call — the descriptor table,
the file system, the address space, the timer — is a parameter (`Services`), over a kernel state
of which only what the handlers touch themselves is laid open: the ids of the calling process, the
open files, the nodes and the thread's `fs_base`.

A handler gets pointers in registers.  `Sys` is the monad of the handlers that check such a pointer
or store through one, and it records every check and every store in order.  The other handlers live
in `Kern`, which has no way to store.  Stores that a callee makes (`fs::read` into the caller's
buffer) are not the handler's and are not recorded.
-/

set_option autoImplicit false

namespace Borrrdex

/-- The registers a handler looks at. -/
structure RegisterContext where
  rdi : U64
  rsi : U64
  rdx : U64
  r10 : U64

/-- `SC_ARG0`. -/
def scArg0 (regs : RegisterContext) : U64 := regs.rdi

/-- `SC_ARG1`. -/
def scArg1 (regs : RegisterContext) : U64 := regs.rsi

/-- `SC_ARG2`. -/
def scArg2 (regs : RegisterContext) : U64 := regs.rdx

/-- `SC_ARG3`. -/
def scArg3 (regs : RegisterContext) : U64 := regs.r10

/-! ## What the handlers work on -/

/-- The error numbers. -/
inductive Errnum
  | ebadf | efault | einval | erofs | enoent | enotdir | eperm | enosys
  deriving DecidableEq

/-- The numbers that come from the C library's headers. -/
structure SysAbi extends MmapAbi where
  errno : Errnum → ℕ
  errno_pos : ∀ e, 0 < errno e
  errno_einval : errno .einval = einval
  oNofollow : U64
  oCreat : U64
  oDirectory : U64
  oTrunc : U64
  oAccmode : U64
  oRdwr : U64
  oWronly : U64
  oAppend : U64
  oCloexec : U32
  oNonblock : U32
  atSymlinkNofollow : U64
  fioclex : U64
  seekSet : U64
  seekCur : U64
  seekEnd : U64

/-- `-e` for an error number. -/
def SysAbi.fail (abi : SysAbi) (e : Errnum) : ℤ := -abi.errno e

/-- `fs_node`, as far as `stat` shows it. -/
structure FsNode where
  inode : U64
  uid : U32
  size : U64
  flags : U32

namespace FsNode

/-- `(flags & FS_NODE_TYPE) == type`, the test behind `is_dir` and its siblings. -/
def hasType (node : FsNode) (type : U32) : Bool := node.flags &&& 0xF000 == type

def isDir (node : FsNode) : Bool := node.hasType 0x4000
def isFile (node : FsNode) : Bool := node.hasType 0x8000
def isBlockDev (node : FsNode) : Bool := node.hasType 0x6000
def isCharDev (node : FsNode) : Bool := node.hasType 0x2000
def isSymlink (node : FsNode) : Bool := node.hasType 0xA000
def isSocket (node : FsNode) : Bool := node.hasType 0xC000

end FsNode

/-- `fs_fd_t`; nodes are known by number. -/
structure FsFd where
  node : ℕ
  pos : U64
  mode : U32

/-- The ids of a process, and its parent's pid. -/
structure Process where
  uid : U32
  gid : U32
  euid : U32
  egid : U32
  pid : ℤ
  parent : Option ℤ

/-- The kernel, as the handlers see it. -/
structure KernelState (κ : Type) where
  proc : Process
  handles : ℕ → FsFd
  nodes : ℕ → FsNode
  fsBase : U64
  rest : κ

/-- Writing to an open file. -/
def KernelState.setFd {κ : Type} (s : KernelState κ) (handle : ℕ) (fd : FsFd) : KernelState κ :=
  { s with handles := Function.update s.handles handle fd }

/-- Code that stores nothing through a register. -/
abbrev Kern (κ : Type) := StateM (KernelState κ)

/-- The video mode, as `sys_map_fb` reports it. -/
structure VideoMode where
  width : U32
  height : U32
  bpp : BitVec 16
  pitch : U32

/-- What the handlers call. -/
structure Services (κ : Type) where
  checkUsermodePointer : U64 → U64 → KernelState κ → Bool
  getFileDesc : U32 → KernelState κ → Option ℕ
  allocateFileDesc : ℕ → Kern κ U32
  replaceFileDesc : U32 → ℕ → Kern κ U32
  destroyFileDesc : U32 → Kern κ U32
  fileDescCount : KernelState κ → U32
  newFd : FsFd → Kern κ ℕ
  addHandle : ℕ → Kern κ Unit
  userString : U64 → KernelState κ → List Byte
  getRoot : KernelState κ → ℕ
  resolvePath : List Byte → Bool → Kern κ (Option ℕ)
  /-- `fs::open` of any node. -/
  fsOpen : ℕ → U32 → Kern κ (Option ℕ)
  /-- `fs_node::open`, which the root and the ends of pipes inherit and which does not fail. -/
  nodeOpen : ℕ → U32 → Kern κ ℕ
  fsRead : ℕ → U64 → U64 → Kern κ ℤ
  fsWrite : ℕ → U64 → U64 → Kern κ ℤ
  ioctl : ℕ → U64 → U64 → Kern κ ℤ
  endProcess : Kern κ Unit
  logInfo : U64 → Kern κ Unit
  allocateAnonymousVmo : U64 → U64 → Bool → Kern κ (Option U64)
  mapFramebuffer : Kern κ (Option U64)
  videoMode : KernelState κ → VideoMode
  grantPty : Kern κ ℕ
  openWorker : ℕ → Kern κ ℕ
  openController : ℕ → Kern κ ℕ
  systemUptime : KernelState κ → U64
  ticks : KernelState κ → U32
  frequency : KernelState κ → U32
  createPipe : Kern κ (ℕ × ℕ)

/-! ## Checks and stores -/

/-- What a handler does with a pointer from a register. -/
inductive UserAccess
  | check (addr len : U64) (ok : Bool)
  | store (addr : U64) (bytes : List Byte)
  deriving DecidableEq

/-- A computation on the kernel state that records the accesses it makes. -/
def Sys (κ α : Type) : Type := KernelState κ → α × List UserAccess × KernelState κ

namespace Sys

variable {κ α β : Type}

instance : Monad (Sys κ) where
  pure a := fun s ↦ (a, [], s)
  bind m f := fun s ↦
    let (a, l, s) := m s
    let (b, l', s) := f a s
    (b, l ++ l', s)

instance : MonadLift (Kern κ) (Sys κ) where
  monadLift m := fun s ↦
    let (a, s) := m s
    (a, [], s)

/-- The kernel state. -/
def kernel : Sys κ (KernelState κ) := fun s ↦ (s, [], s)

/-- `memory::check_usermode_pointer` for the calling process. -/
def check (svc : Services κ) (addr len : U64) : Sys κ Bool := fun s ↦
  let ok := svc.checkUsermodePointer addr len s
  (ok, [.check addr len ok], s)

/-- A store through a pointer. -/
def store (addr : U64) (bytes : List Byte) : Sys κ Unit := fun s ↦ ((), [.store addr bytes], s)

/-- One store after another. -/
def storeAll (l : List (U64 × List Byte)) : Sys κ Unit := fun s ↦
  ((), l.map fun p ↦ .store p.1 p.2, s)

/-- What a run returns. -/
def code (m : Sys κ α) (s : KernelState κ) : α := (m s).1

/-- The accesses of a run. -/
def accesses (m : Sys κ α) (s : KernelState κ) : List UserAccess := (m s).2.1

/-- The state a run ends in. -/
def final (m : Sys κ α) (s : KernelState κ) : KernelState κ := (m s).2.2

section Run

variable (m : Sys κ α) (f : α → Sys κ β) (a : α) (k : Kern κ α) (svc : Services κ) (addr len : U64)
  (bytes : List Byte) (l : List (U64 × List Byte)) (s : KernelState κ)

@[simp] theorem code_pure : code (pure a) s = a := rfl
@[simp] theorem accesses_pure : accesses (pure a) s = [] := rfl
@[simp] theorem final_pure : final (pure a) s = s := rfl

@[simp] theorem code_bind : code (m >>= f) s = code (f (code m s)) (final m s) := rfl
@[simp] theorem accesses_bind :
    accesses (m >>= f) s = accesses m s ++ accesses (f (code m s)) (final m s) := rfl
@[simp] theorem final_bind : final (m >>= f) s = final (f (code m s)) (final m s) := rfl

@[simp] theorem code_lift : code (liftM k : Sys κ α) s = (k s).1 := rfl
@[simp] theorem accesses_lift : accesses (liftM k : Sys κ α) s = [] := rfl
@[simp] theorem final_lift : final (liftM k : Sys κ α) s = (k s).2 := rfl

@[simp] theorem code_kernel : code kernel s = s := rfl
@[simp] theorem accesses_kernel : accesses kernel s = [] := rfl
@[simp] theorem final_kernel : final kernel s = s := rfl

@[simp] theorem code_check : code (check svc addr len) s = svc.checkUsermodePointer addr len s :=
  rfl
@[simp] theorem accesses_check : accesses (check svc addr len) s =
    [.check addr len (svc.checkUsermodePointer addr len s)] := rfl
@[simp] theorem final_check : final (check svc addr len) s = s := rfl

@[simp] theorem accesses_store : accesses (store addr bytes) s = [.store addr bytes] := rfl
@[simp] theorem accesses_storeAll :
    accesses (storeAll l) s = l.map fun p ↦ .store p.1 p.2 := rfl

end Run

end Sys

/-- The `n` low bytes of a word, as they are stored. -/
def leBytes (n : ℕ) (x : U64) : List Byte :=
  (List.range n).map fun i ↦ (x >>> (8 * i)).setWidth 8

@[simp] theorem length_leBytes (n : ℕ) (x : U64) : (leBytes n x).length = n := by
  simp [leBytes]

/-! ## The handlers that store nothing -/

namespace Handlers

variable {κ : Type} (abi : SysAbi) (svc : Services κ) (regs : RegisterContext)

/-- `sys_log`. -/
def sysLog : Kern κ ℤ := do
  svc.logInfo (scArg0 regs)
  return 0

/-- `sys_open`.  The path is copied out of the process before it is looked at. -/
def sysOpen : Kern κ ℤ := do
  let filepath := svc.userString (scArg0 regs) (← get)
  let flags := scArg1 regs
  if filepath = [0x2f#8] then
    return (← svc.allocateFileDesc (← svc.nodeOpen (svc.getRoot (← get)) 0)).toInt
  match ← svc.resolvePath filepath (flags &&& abi.oNofollow = 0) with
  | none => return if flags &&& abi.oCreat ≠ 0 then abi.fail .erofs else abi.fail .enoent
  | some node =>
    if flags &&& abi.oDirectory ≠ 0 ∧ !((← get).nodes node).isDir then
      return abi.fail .enotdir
    if flags &&& abi.oTrunc ≠ 0 ∧
        (flags &&& abi.oAccmode = abi.oRdwr ∨ flags &&& abi.oAccmode = abi.oWronly) then
      return abi.fail .erofs
    match ← svc.fsOpen node (flags.setWidth 32) with
    | none => return abi.fail .enoent
    | some handle =>
      if flags &&& abi.oAppend ≠ 0 then
        modify fun s ↦
          let fd := s.handles handle
          s.setFd handle { fd with pos := (s.nodes fd.node).size }
      return (← svc.allocateFileDesc handle).toInt

/-- `sys_seek`.  The offset is unsigned, so the test for a negative position never holds. -/
def sysSeek : Kern κ ℤ := do
  let s ← get
  match svc.getFileDesc ((scArg0 regs).setWidth 32) s with
  | none => return abi.fail .ebadf
  | some handle =>
    let fd := s.handles handle
    let size := (s.nodes fd.node).size
    let setPos (pos : U64) : Kern κ ℤ := do
      set (s.setFd handle { fd with pos := pos })
      return pos.toInt
    if scArg2 regs = abi.seekSet then
      if scArg1 regs > size then return abi.fail .einval
      setPos (scArg1 regs)
    else if scArg2 regs = abi.seekCur then
      if scArg1 regs + fd.pos > size then return abi.fail .einval
      setPos (fd.pos + scArg1 regs)
    else if scArg2 regs = abi.seekEnd then
      if scArg1 regs > 0 then return abi.fail .einval
      setPos (size + scArg1 regs)
    else return abi.fail .einval

/-- `sys_close`. -/
def sysClose : Kern κ ℤ := do
  let err ← svc.destroyFileDesc ((scArg0 regs).setWidth 32)
  return if err ≠ 0 then abi.fail .ebadf else 0

/-- `sys_exit`. -/
def sysExit : Kern κ ℤ := do
  svc.endProcess
  return 0

/-- `sys_set_fsbase`. -/
def sysSetFsbase : Kern κ ℤ := do
  modify fun s ↦ { s with fsBase := scArg0 regs }
  return 0

/-- `sys_getuid`, `sys_getgid`, `sys_geteuid` and `sys_getegid`: an id of the process. -/
def sysGetId (id : Process → U32) : Kern κ ℤ := do
  return (id (← get).proc).toInt

/-- `sys_setuid` and `sys_setgid`: an id that the process does not have takes the privileges of
the superuser, and sets the real and the effective one. -/
def sysSetId (id : Process → U32) (assign : U32 → Process → Process) : Kern κ ℤ := do
  let proc := (← get).proc
  let requestedId : U32 := (scArg0 regs).setWidth 32
  if id proc = requestedId then return 0
  if proc.euid ≠ 0 then return abi.fail .eperm
  modify fun s ↦ { s with proc := assign requestedId proc }
  return 0

/-- `sys_seteuid` and `sys_setegid`: without privileges the effective id can only become the real
one.  The privileges are those of the real user in both. -/
def sysSetEffectiveId (effective real : Process → U32) (assign : U32 → Process → Process) :
    Kern κ ℤ := do
  let proc := (← get).proc
  let requestedId : U32 := (scArg0 regs).setWidth 32
  if effective proc = requestedId then return 0
  if proc.uid ≠ 0 ∧ real proc ≠ requestedId then return abi.fail .eperm
  modify fun s ↦ { s with proc := assign requestedId proc }
  return 0

/-- `sys_setuid`. -/
def sysSetuid : Kern κ ℤ :=
  sysSetId abi regs Process.uid fun id proc ↦ { proc with uid := id, euid := id }

/-- `sys_setgid`. -/
def sysSetgid : Kern κ ℤ :=
  sysSetId abi regs Process.gid fun id proc ↦ { proc with gid := id, egid := id }

/-- `sys_seteuid`. -/
def sysSeteuid : Kern κ ℤ :=
  sysSetEffectiveId abi regs Process.euid Process.uid fun id proc ↦ { proc with euid := id }

/-- `sys_setegid`. -/
def sysSetegid : Kern κ ℤ :=
  sysSetEffectiveId abi regs Process.egid Process.gid fun id proc ↦ { proc with egid := id }

/-- `sys_getpid`. -/
def sysGetpid : Kern κ ℤ := do
  return (← get).proc.pid

/-- `sys_getppid`. -/
def sysGetppid : Kern κ ℤ := do
  return (← get).proc.parent.getD (-1)

/-- `sys_dup`. -/
def sysDup : Kern κ ℤ := do
  let fd : U32 := (scArg0 regs).setWidth 32
  let requestedFd : U32 := (scArg2 regs).setWidth 32
  if fd = requestedFd then return abi.fail .einval
  match svc.getFileDesc fd (← get) with
  | none => return abi.fail .ebadf
  | some handle =>
    let old := (← get).handles handle
    let cloexec := scArg1 regs &&& abi.oCloexec.setWidth 64 ≠ 0
    let mode := if cloexec then old.mode ||| abi.oCloexec else old.mode
    let newHandle ← svc.newFd { old with mode := mode }
    svc.addHandle old.node
    if 0 ≤ requestedFd.toInt then
      if svc.fileDescCount (← get) ≤ requestedFd then return abi.fail .enosys
      let _ ← svc.destroyFileDesc requestedFd
      if (← svc.replaceFileDesc requestedFd newHandle) ≠ 0 then return abi.fail .ebadf
      return requestedFd.toInt
    return (← svc.allocateFileDesc newHandle).toInt

/-- `sys_get_fstat_flags`. -/
def sysGetFstatFlags : Kern κ ℤ := do
  let s ← get
  match svc.getFileDesc ((scArg0 regs).setWidth 32) s with
  | none => return abi.fail .ebadf
  | some handle => return (s.handles handle).mode.toInt

/-- `sys_set_fstat_flags`. -/
def sysSetFstatFlags : Kern κ ℤ := do
  let s ← get
  match svc.getFileDesc ((scArg0 regs).setWidth 32) s with
  | none => return abi.fail .ebadf
  | some handle =>
    let mask := abi.oAppend.setWidth 32 ||| abi.oNonblock
    let flags : U32 := (scArg1 regs).setWidth 32
    let fd := s.handles handle
    set (s.setFd handle { fd with mode := (fd.mode &&& ~~~mask) ||| (flags &&& mask) })
    return 0

/-! ## The handlers that check or store -/

open Sys

/-- `sys_read` and `sys_write`: the buffer is checked, then handed to `fs::read` or `fs::write`. -/
def sysTransfer (transfer : ℕ → U64 → U64 → Kern κ ℤ) : Sys κ ℤ := do
  match svc.getFileDesc ((scArg0 regs).setWidth 32) (← kernel) with
  | none => return abi.fail .ebadf
  | some handle =>
    if !(← check svc (scArg1 regs) (scArg2 regs)) then return abi.fail .efault
    transfer handle (scArg2 regs) (scArg1 regs)

/-- `sys_read`. -/
def sysRead : Sys κ ℤ := sysTransfer abi svc regs svc.fsRead

/-- `sys_write`. -/
def sysWrite : Sys κ ℤ := sysTransfer abi svc regs svc.fsWrite

/-- `sys_ioctl` behind its check. -/
def ioctlChecked : Sys κ ℤ := do
  let result := scArg3 regs
  match svc.getFileDesc ((scArg0 regs).setWidth 32) (← kernel) with
  | none => return abi.fail .ebadf
  | some handle =>
    if scArg1 regs = abi.fioclex then
      (modify fun s ↦
        s.setFd handle { s.handles handle with mode := (s.handles handle).mode ||| abi.oCloexec }
          : Kern κ Unit)
      return 0
    else
      let ret ← svc.ioctl handle (scArg1 regs) (scArg2 regs)
      if result ≠ 0 ∧ 0 < ret then
        store result (leBytes 4 (BitVec.ofInt 64 ret))
        return ret
      else return ret

/-- `sys_ioctl`.  A null result pointer is neither checked nor stored through. -/
def sysIoctl : Sys κ ℤ := do
  if scArg3 regs = 0 then ioctlChecked abi svc regs
  else if !(← check svc (scArg3 regs) 4) then return abi.fail .efault
  else ioctlChecked abi svc regs

/-- `sys_mmap`, with its store. -/
def sysMmap : Sys κ ℤ := do
  let size := scArg1 regs
  let flags := scArg3 regs
  if size = 0#64 then return abi.fail .einval
  if abi.Refuses flags then return abi.fail .einval
  match ← svc.allocateAnonymousVmo size (scArg2 regs) (abi.fixed flags) with
  | none => return -1
  | some base =>
    if base = 0#64 then return -1
    store (scArg0 regs) (leBytes 8 base)
    return 0

/-- The stores of `sys_map_fb`: the packed `fb_info_t`, then the address. -/
def fbStores (mode : VideoMode) (virt : U64) : List (U64 × List Byte) :=
  [(scArg1 regs, leBytes 4 (mode.width.setWidth 64)),
    (scArg1 regs + 4, leBytes 4 (mode.height.setWidth 64)),
    (scArg1 regs + 8, leBytes 2 (mode.bpp.setWidth 64)),
    (scArg1 regs + 10, leBytes 4 (mode.pitch.setWidth 64)),
    (scArg0 regs, leBytes 8 virt)]

/-- `sys_map_fb`. -/
def sysMapFb : Sys κ ℤ := do
  let mode := svc.videoMode (← kernel)
  match ← svc.mapFramebuffer with
  | none => return -1
  | some virt =>
    if virt = 0 then return -1
    storeAll (fbStores regs mode virt)
    return 0

/-- `sys_grant_pty`. -/
def sysGrantPty : Sys κ ℤ := do
  if scArg0 regs = 0 then return 1
  let p ← svc.grantPty
  let _ ← svc.replaceFileDesc 0 (← svc.openWorker p)
  let _ ← svc.replaceFileDesc 1 (← svc.openWorker p)
  let _ ← svc.replaceFileDesc 2 (← svc.openWorker p)
  let fd ← svc.allocateFileDesc (← svc.openController p)
  store (scArg0 regs) (leBytes 4 (fd.setWidth 64))
  return 0

/-- `sys_uptime`. -/
def sysUptime : Sys κ ℤ := do
  let s ← kernel
  if scArg0 regs ≠ 0 then store (scArg0 regs) (leBytes 8 (svc.systemUptime s))
  if scArg1 regs ≠ 0 then
    store (scArg1 regs) (leBytes 8 ((svc.ticks s * 1000 / svc.frequency s).setWidth 64))
  return 0

/-- `sys_pipe`. -/
def sysPipe : Sys κ ℤ := do
  let flags : U32 := (scArg1 regs).setWidth 32
  if flags &&& ~~~(abi.oCloexec ||| abi.oNonblock) ≠ 0 then return abi.fail .einval
  let (read, write) ← svc.createPipe
  let readHandle ← svc.nodeOpen read 0
  let writeHandle ← svc.nodeOpen write 0
  let setMode (handle : ℕ) : Kern κ Unit :=
    modify fun s ↦ s.setFd handle { s.handles handle with mode := flags }
  setMode readHandle
  setMode writeHandle
  let fd ← svc.allocateFileDesc readHandle
  store (scArg0 regs) (leBytes 4 (fd.setWidth 64))
  let fd ← svc.allocateFileDesc writeHandle
  store (scArg0 regs + 4) (leBytes 4 (fd.setWidth 64))
  return 0

/-- The values `st_mode` takes while its bits are or-ed together. -/
def statModes (node : FsNode) : List U32 :=
  let bits := [(node.isDir, 0x4000#32), (node.isFile, 0x8000#32), (node.isBlockDev, 0x6000#32),
    (node.isCharDev, 0x2000#32), (node.isSymlink, 0xA000#32), (node.isSocket, 0xC000#32)]
  ((bits.filter Prod.fst).map Prod.snd).scanl (· ||| ·) 0

/-- The stores that fill in a `stat_t` at `addr`, field by field. -/
def statStores (addr : U64) (node : FsNode) : List (U64 × List Byte) :=
  [(addr, leBytes 8 0), (addr + 8, leBytes 8 node.inode)] ++
    ((statModes node).map fun mode ↦ (addr + 16, leBytes 4 (mode.setWidth 64))) ++
    [(addr + 20, leBytes 4 0), (addr + 24, leBytes 4 (node.uid.setWidth 64)),
      (addr + 28, leBytes 4 0), (addr + 32, leBytes 8 0), (addr + 40, leBytes 8 node.size),
      (addr + 48, leBytes 8 0), (addr + 56, leBytes 8 0)]

/-- `sys_fstat`. -/
def sysFstat : Sys κ ℤ := do
  let s ← kernel
  match svc.getFileDesc ((scArg1 regs).setWidth 32) s with
  | none => return abi.fail .ebadf
  | some handle =>
    storeAll (statStores (scArg0 regs) (s.nodes (s.handles handle).node))
    return 0

/-- `sys_stat`.  The path is checked with the size of a `stat_t`, too. -/
def sysStat : Sys κ ℤ := do
  if !(← check svc (scArg0 regs) 64) then return abi.fail .einval
  if !(← check svc (scArg1 regs) 64) then return abi.fail .einval
  let filepath := svc.userString (scArg1 regs) (← kernel)
  match ← svc.resolvePath filepath (scArg2 regs &&& abi.atSymlinkNofollow = 0) with
  | none => return abi.fail .enoent
  | some node =>
    storeAll (statStores (scArg0 regs) ((← kernel).nodes node))
    return 0

end Handlers

/-! ## The table -/

/-- The system calls, in the order of the table. -/
inductive Syscall
  | log | openFile | read | write | seek | close | ioctl | exit | mmap | setFsbase | mapFb
  | grantPty | uptime | getuid | setuid | getgid | setgid | geteuid | seteuid | getegid | setegid
  | getpid | getppid | dup | getFstatFlags | setFstatFlags | pipe | fstat | stat
  deriving DecidableEq

open Handlers in
/-- `syscalls`: what runs for each call. -/
def Syscall.handler {κ : Type} (abi : SysAbi) (svc : Services κ) (regs : RegisterContext) :
    Syscall → Sys κ ℤ
  | .log => liftM (sysLog svc regs)
  | .openFile => liftM (sysOpen abi svc regs)
  | .read => sysRead abi svc regs
  | .write => sysWrite abi svc regs
  | .seek => liftM (sysSeek abi svc regs)
  | .close => liftM (sysClose abi svc regs)
  | .ioctl => sysIoctl abi svc regs
  | .exit => liftM (sysExit svc)
  | .mmap => Handlers.sysMmap abi svc regs
  | .setFsbase => liftM (sysSetFsbase regs : Kern κ ℤ)
  | .mapFb => sysMapFb svc regs
  | .grantPty => sysGrantPty svc regs
  | .uptime => sysUptime svc regs
  | .getuid => liftM (sysGetId Process.uid : Kern κ ℤ)
  | .setuid => liftM (sysSetuid abi regs : Kern κ ℤ)
  | .getgid => liftM (sysGetId Process.gid : Kern κ ℤ)
  | .setgid => liftM (sysSetgid abi regs : Kern κ ℤ)
  | .geteuid => liftM (sysGetId Process.euid : Kern κ ℤ)
  | .seteuid => liftM (sysSeteuid abi regs : Kern κ ℤ)
  | .getegid => liftM (sysGetId Process.egid : Kern κ ℤ)
  | .setegid => liftM (sysSetegid abi regs : Kern κ ℤ)
  | .getpid => liftM (sysGetpid : Kern κ ℤ)
  | .getppid => liftM (sysGetppid : Kern κ ℤ)
  | .dup => liftM (sysDup abi svc regs)
  | .getFstatFlags => liftM (sysGetFstatFlags abi svc regs)
  | .setFstatFlags => liftM (sysSetFstatFlags abi svc regs)
  | .pipe => sysPipe abi svc regs
  | .fstat => sysFstat abi svc regs
  | .stat => sysStat abi svc regs

/-- The table itself. -/
def syscalls : List Syscall :=
  [.log, .openFile, .read, .write, .seek, .close, .ioctl, .exit, .mmap, .setFsbase, .mapFb,
    .grantPty, .uptime, .getuid, .setuid, .getgid, .setgid, .geteuid, .seteuid, .getegid, .setegid,
    .getpid, .getppid, .dup, .getFstatFlags, .setFstatFlags, .pipe, .fstat, .stat]

/-- `syscall_handler`, for a thread that is neither a zombie nor in a system call already: the
value left in `rax`. -/
def syscallHandler {κ : Type} (abi : SysAbi) (svc : Services κ) (regs : RegisterContext)
    (rax : U64) : Sys κ ℤ :=
  match syscalls[rax.toNat]? with
  | none => return abi.fail .enosys
  | some call => call.handler abi svc regs

end Borrrdex
