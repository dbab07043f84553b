import Borrrdex.Proc.Descriptors

/-!
# What the system calls do to the descriptors

Twenty-two of the handlers leave the tables and the counts alone; they may move the position or set
the flags of an open file, which is `Quiet`.  The other seven come down to short sequences of
the operations of `Descriptors`.
-/

set_option autoImplicit false

namespace Borrrdex

open Handlers Sys

/-! ## Running handlers -/

section Run

variable {κ α β : Type} (m : Kern κ α) (f : α → Kern κ β) (s : KernelState κ)

theorem Kern.run_bind : (m >>= f) s = f (m s).1 (m s).2 := rfl

theorem Kern.run_get : (get : Kern κ (KernelState κ)) s = (s, s) := rfl

theorem Kern.run_ite {c : Prop} [Decidable c] (m' : Kern κ α) :
    (if c then m else m') s = if c then m s else m' s := by
  split <;> rfl

variable (n : Sys κ α)

theorem Sys.final_ite {c : Prop} [Decidable c] (n' : Sys κ α) :
    (if c then n else n').final s = if c then n.final s else n'.final s := by
  split <;> rfl

end Run

/-! ## The calls that leave the descriptors alone -/

/-- The tables and the nodes are the same, and so is the node of every handle. -/
structure Quiet (k k' : Kernel) : Prop where
  rest : k'.rest = k.rest
  node : ∀ h, (k'.handles h).node = (k.handles h).node

theorem Quiet.refl (k : Kernel) : Quiet k k := ⟨rfl, fun _ ↦ rfl⟩

theorem Quiet.trans {k₁ k₂ k₃ : Kernel} (h : Quiet k₁ k₂) (h' : Quiet k₂ k₃) : Quiet k₁ k₃ :=
  ⟨h'.rest.trans h.rest, fun i ↦ (h'.node i).trans (h.node i)⟩

theorem quiet_setFd (k : Kernel) (h : ℕ) {fd : FsFd} (hfd : fd.node = (k.handles h).node) :
    Quiet k (k.setFd h fd) := by
  refine ⟨rfl, fun i ↦ ?_⟩
  by_cases hi : i = h
  · subst hi
    simp [KernelState.setFd, hfd]
  · simp [KernelState.setFd, hi]

theorem quiet_advance (k : Kernel) (h : ℕ) (ret : ℤ) : Quiet k (k.advance h ret) := by
  rw [KernelState.advance]
  split
  · exact quiet_setFd k h rfl
  · exact .refl k

variable (abi : SysAbi) (env : Env) (regs : RegisterContext) (k : Kernel)

theorem quiet_sysSeek : Quiet k (sysSeek abi env.services regs k).2 := by
  unfold sysSeek
  rw [Kern.run_bind, Kern.run_get]
  cases env.services.getFileDesc ((scArg0 regs).setWidth 32) k with
  | none => exact .refl k
  | some h =>
    simp only [Kern.run_ite]
    split_ifs <;> first | exact .refl k | exact quiet_setFd k h rfl

theorem quiet_sysTransfer (transfer : ℕ → U64 → U64 → Kern Descriptors ℤ)
    (h : ∀ fd size buf k, Quiet k (transfer fd size buf k).2) :
    Quiet k ((sysTransfer abi env.services regs transfer).final k) := by
  rw [sysTransfer, final_bind, code_kernel, final_kernel]
  split
  · exact .refl k
  · rw [final_bind, final_check, final_ite]
    split
    · exact .refl k
    · exact h ..

theorem quiet_ioctlChecked : Quiet k ((ioctlChecked abi env.services regs).final k) := by
  rw [ioctlChecked, final_bind, code_kernel, final_kernel]
  split
  · exact .refl k
  · next h _ =>
    rw [final_ite]
    split
    · exact quiet_setFd k h rfl
    · rw [final_bind, final_ite]
      split <;> exact .refl k

theorem quiet_sysIoctl : Quiet k ((sysIoctl abi env.services regs).final k) := by
  rw [sysIoctl, final_ite]
  split
  · exact quiet_ioctlChecked abi env regs k
  · rw [final_bind, final_ite]
    split
    · exact .refl k
    · exact quiet_ioctlChecked abi env regs k

theorem quiet_sysSetFstatFlags : Quiet k (sysSetFstatFlags abi env.services regs k).2 := by
  unfold sysSetFstatFlags
  rw [Kern.run_bind, Kern.run_get]
  cases env.services.getFileDesc ((scArg0 regs).setWidth 32) k with
  | none => exact .refl k
  | some h => exact quiet_setFd k h rfl

theorem quiet_sysGetFstatFlags : Quiet k (sysGetFstatFlags abi env.services regs k).2 := by
  unfold sysGetFstatFlags
  rw [Kern.run_bind, Kern.run_get]
  cases env.services.getFileDesc ((scArg0 regs).setWidth 32) k <;> exact .refl k

theorem quiet_sysFstat : Quiet k ((sysFstat abi env.services regs).final k) := by
  rw [sysFstat, final_bind, code_kernel, final_kernel]
  split <;> exact .refl k

theorem quiet_sysSetId (id : Process → U32) (assign : U32 → Process → Process) :
    Quiet k (sysSetId abi regs id assign k).2 := by
  unfold sysSetId
  rw [Kern.run_bind, Kern.run_get]
  simp only [Kern.run_ite]
  split_ifs <;> exact ⟨rfl, fun _ ↦ rfl⟩

theorem quiet_sysSetEffectiveId (effective real : Process → U32)
    (assign : U32 → Process → Process) :
    Quiet k (sysSetEffectiveId abi regs effective real assign k).2 := by
  unfold sysSetEffectiveId
  rw [Kern.run_bind, Kern.run_get]
  simp only [Kern.run_ite]
  split_ifs <;> exact ⟨rfl, fun _ ↦ rfl⟩

theorem quiet_sysMmap : Quiet k ((Handlers.sysMmap abi env.services regs).final k) := by
  rw [Handlers.sysMmap]
  simp only [final_ite]
  split_ifs
  · exact .refl k
  · exact .refl k
  · rw [final_bind]
    split
    · exact .refl k
    · rw [final_ite]
      split <;> exact .refl k

theorem quiet_sysMapFb : Quiet k ((sysMapFb env.services regs).final k) := by
  rw [sysMapFb, final_bind, final_bind]
  split
  · exact .refl k
  · rw [final_ite]
    split <;> exact .refl k

theorem quiet_sysUptime : Quiet k ((sysUptime env.services regs).final k) := by
  rw [sysUptime, final_bind]
  simp only [final_ite, final_bind]
  split_ifs <;> exact .refl k

/-- The calls that open, close or look up. -/
def Syscall.touchesNodes : Syscall → Bool
  | .openFile | .close | .exit | .grantPty | .dup | .pipe | .stat => true
  | _ => false

theorem quiet_handler {call : Syscall} (h : call.touchesNodes = false) :
    Quiet k ((call.handler abi env.services regs).final k) := by
  cases call with
  | openFile | close | exit | grantPty | dup | pipe | stat => cases h
  | log | getuid | getgid | geteuid | getegid | getpid | getppid => exact .refl k
  | setFsbase => exact ⟨rfl, fun _ ↦ rfl⟩
  | read => exact quiet_sysTransfer abi env regs k _ fun fd size buf k ↦ quiet_advance k fd _
  | write => exact quiet_sysTransfer abi env regs k _ fun fd size buf k ↦ quiet_advance k fd _
  | seek => exact quiet_sysSeek abi env regs k
  | ioctl => exact quiet_sysIoctl abi env regs k
  | mmap => exact quiet_sysMmap abi env regs k
  | mapFb => exact quiet_sysMapFb env regs k
  | uptime => exact quiet_sysUptime env regs k
  | setuid => exact quiet_sysSetId abi regs k Process.uid fun id p ↦
      { p with uid := id, euid := id }
  | setgid => exact quiet_sysSetId abi regs k Process.gid fun id p ↦
      { p with gid := id, egid := id }
  | seteuid =>
    exact quiet_sysSetEffectiveId abi regs k Process.euid Process.uid fun id p ↦
      { p with euid := id }
  | setegid =>
    exact quiet_sysSetEffectiveId abi regs k Process.egid Process.gid fun id p ↦
      { p with egid := id }
  | getFstatFlags => exact quiet_sysGetFstatFlags abi env regs k
  | setFstatFlags => exact quiet_sysSetFstatFlags abi env regs k
  | fstat => exact quiet_sysFstat abi env regs k

/-! ## The calls that do not -/

/-- The low half of a register, as an `int`. -/
abbrev intArg (arg : U64) : U32 := arg.setWidth 32

theorem sysClose_eq : sysClose abi env.services regs k =
    (if (k.destroyFileDesc (intArg (scArg0 regs))).1 ≠ 0 then abi.fail .ebadf else 0,
      (k.destroyFileDesc (intArg (scArg0 regs))).2) := rfl

theorem final_sysStat : (sysStat abi env.services regs).final k = k ∨
    ∃ l, (sysStat abi env.services regs).final k = k.lookedUp l := by
  rw [sysStat, final_bind, final_ite]
  split
  · exact .inl rfl
  · rw [final_bind, final_ite]
    split
    · exact .inl rfl
    · refine .inr ⟨env.resolvePath (env.userString (scArg1 regs) k)
        (scArg2 regs &&& abi.atSymlinkNofollow = 0) k, ?_⟩
      rw [final_bind, final_bind]
      split <;> rfl

/-- Open a node and put the handle into the table, perhaps with the position moved in between. -/
inductive Opens (k : Kernel) (n : ℕ) : Kernel → Prop
  | intro {flags : U32} {k' : Kernel} (h : Quiet (k.openNode n flags).2 k') :
      Opens k n (k'.allocateFileDesc (some (k.openNode n flags).1)).2

/-- A lookup returns a node that is there. -/
theorem resolvePath_spec (path : List Byte) (follow : Bool) :
    ∃ l, (KernelState.resolvePath env path follow k).2 = k.lookedUp l ∧
      ∀ n, (KernelState.resolvePath env path follow k).1 = some n →
        (k.lookedUp l).rest.Alive n := by
  refine ⟨env.resolvePath path follow k, rfl, fun n hn ↦ ?_⟩
  exact of_decide_eq_true (Option.filter_eq_some_iff.mp hn).2

theorem final_sysOpen : (Opens k KernelState.root (sysOpen abi env.services regs k).2) ∨
    ∃ l, (sysOpen abi env.services regs k).2 = k.lookedUp l ∨
      ∃ n, (k.lookedUp l).rest.Alive n ∧
        Opens (k.lookedUp l) n (sysOpen abi env.services regs k).2 := by
  unfold sysOpen
  rw [Kern.run_bind, Kern.run_get, Kern.run_ite]
  split
  · exact .inl (.intro (.refl _))
  · rw [Kern.run_bind]
    generalize hr : env.services.resolvePath _ _ _ = r
    have hspec : ∃ l, r.2 = k.lookedUp l ∧ ∀ n, r.1 = some n → (k.lookedUp l).rest.Alive n :=
      hr ▸ resolvePath_spec env k _ _
    obtain ⟨l, hl, halive⟩ := hspec
    obtain ⟨found, k₁⟩ := r
    obtain rfl : k₁ = _ := hl
    refine .inr ⟨l, ?_⟩
    cases found with
    | none => exact .inl rfl
    | some n =>
      dsimp only
      rw [Kern.run_bind, Kern.run_get, Kern.run_ite, Kern.run_ite]
      split_ifs
      · exact .inl rfl
      · exact .inl rfl
      · exact .inr ⟨n, halive n rfl, .intro (quiet_setFd _ _ rfl)⟩
      · exact .inr ⟨n, halive n rfl, .intro (.refl _)⟩

/-- The first half of `sys_dup`: a copy of a handle, and one more for its node. -/
def KernelState.duplicate (k : Kernel) (fd : FsFd) : ℕ × Kernel :=
  ((k.newFd fd).1, (k.newFd fd).2.addHandle fd.node)

/-- `sys_dup` does nothing, or has a handle to copy. -/
theorem final_sysDup :
    (intArg (scArg0 regs) = intArg (scArg2 regs) ∨
        env.services.getFileDesc (intArg (scArg0 regs)) k = none) ∧
      (sysDup abi env.services regs k).2 = k ∨
    intArg (scArg0 regs) ≠ intArg (scArg2 regs) ∧
    ∃ h fd, env.services.getFileDesc (intArg (scArg0 regs)) k = some h ∧
      fd.node = (k.handles h).node ∧
      if 0 ≤ (intArg (scArg2 regs)).toInt then
        if env.services.fileDescCount k ≤ intArg (scArg2 regs) then
          (sysDup abi env.services regs k).2 = (k.duplicate fd).2
        else
          (sysDup abi env.services regs k).2 =
            (((k.duplicate fd).2.destroyFileDesc (intArg (scArg2 regs))).2.replaceFileDesc
              (intArg (scArg2 regs)) (k.duplicate fd).1).2
      else
        (sysDup abi env.services regs k).2 =
          ((k.duplicate fd).2.allocateFileDesc (some (k.duplicate fd).1)).2 := by
  unfold sysDup
  rw [Kern.run_ite]
  split
  · next heq => exact .inl ⟨.inl heq, rfl⟩
  · next hne =>
    rw [Kern.run_bind, Kern.run_get]
    cases hget : env.services.getFileDesc (intArg (scArg0 regs)) k with
    | none => exact .inl ⟨.inr rfl, rfl⟩
    | some h =>
      let fd : FsFd :=
        { k.handles h with
          mode := if scArg1 regs &&& abi.oCloexec.setWidth 64 ≠ 0 then
              (k.handles h).mode ||| abi.oCloexec
            else (k.handles h).mode }
      refine .inr ⟨hne, h, fd, rfl, rfl, ?_⟩
      dsimp only
      rw [Kern.run_bind, Kern.run_get, Kern.run_bind, Kern.run_bind, Kern.run_ite]
      split
      · rw [Kern.run_bind, Kern.run_get, Kern.run_ite]
        by_cases hcount : env.services.fileDescCount k ≤ intArg (scArg2 regs)
        · rw [if_pos hcount]
          exact congrArg Prod.snd (if_pos hcount)
        · rw [if_neg hcount]
          refine (congrArg Prod.snd (if_neg hcount)).trans ?_
          rw [Kern.run_bind, Kern.run_bind, Kern.run_ite]
          exact (apply_ite Prod.snd _ _ _).trans (ite_self _)
      · rfl

section

variable {α β : Type} {env k}

theorem final_lift_bind {m : Kern Descriptors α} {r : α × Kernel} (f : α → Sys Descriptors β)
    (h : m k = r) : (liftM m >>= f).final k = (f r.1).final r.2 := by
  rw [final_bind, code_lift, final_lift, h]

end

/-- Open the two ends of a pipe and put the handles into the table, with flags set in between. -/
inductive OpensPipe (k : Kernel) (n : ℕ) : Kernel → Prop
  | intro {k₁ k₂ : Kernel} (h₁ : k₁ = (k.openNode n 0).2)
      (h₂ : Quiet (k₁.openNode (n + 1) 0).2 k₂) :
      OpensPipe k n ((k₂.allocateFileDesc (some (k.openNode n 0).1)).2.allocateFileDesc
        (some (k₁.openNode (n + 1) 0).1)).2

/-- `sys_pipe` makes a pipe and opens it, or does nothing. -/
theorem final_sysPipe : (sysPipe abi env.services regs).final k = k ∨
    OpensPipe k.createPipe.2 k.rest.nextNode ((sysPipe abi env.services regs).final k) := by
  rw [sysPipe, final_ite]
  split
  · exact .inl rfl
  · rw [final_lift_bind _ (show env.services.createPipe k = k.createPipe from rfl)]
    right
    dsimp only [KernelState.createPipe]
    rw [final_lift_bind _ (show env.services.nodeOpen _ 0 _ = KernelState.openNode _ _ 0 from rfl),
      final_lift_bind _ (show env.services.nodeOpen _ 0 _ = KernelState.openNode _ _ 0 from rfl)]
    refine .intro rfl (.trans (quiet_setFd _ _ ?_) (quiet_setFd _ _ ?_)) <;> rfl

/-- Open a node and put the handle into a given slot. -/
def KernelState.attach (k : Kernel) (n : ℕ) (fd : U32) : Kernel :=
  ((k.openNode n 0).2.replaceFileDesc fd (k.openNode n 0).1).2

theorem final_openWorker_bind {α : Type} {f : U32 → Sys Descriptors α} (n : ℕ) (fd : U32) :
    (liftM (env.services.openWorker n) >>= fun h ↦
      liftM (env.services.replaceFileDesc fd h) >>= f).final k =
    (f ((k.openNode n 0).2.replaceFileDesc fd (k.openNode n 0).1).1).final (k.attach n fd) := rfl

/-- `sys_grant_pty` makes a pty, puts its worker end into the first three slots and its controller
end into the table, or does nothing. -/
theorem final_sysGrantPty : (sysGrantPty env.services regs).final k = k ∨
    Opens (((k.grantPty.2.attach k.rest.nextNode 0).attach k.rest.nextNode 1).attach
      k.rest.nextNode 2) (k.rest.nextNode + 1) ((sysGrantPty env.services regs).final k) := by
  rw [sysGrantPty, final_ite]
  split
  · exact .inl rfl
  · rw [final_lift_bind _ (show env.services.grantPty k = k.grantPty from rfl)]
    right
    dsimp only [KernelState.grantPty]
    rw [final_openWorker_bind, final_openWorker_bind, final_openWorker_bind]
    generalize KernelState.attach _ _ 2 = k'
    exact .intro (.refl _)

end Borrrdex
