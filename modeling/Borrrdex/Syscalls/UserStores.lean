import Borrrdex.Syscalls.Handlers

/-!
# Which stores of the handlers are checked

A system call is *confined* when every byte its handler stores through a register lies in a range
that `check_usermode_pointer` accepted earlier in the same call, and when a range that was refused
makes the call fail before anything is stored.

Of the twenty-nine handlers, ten touch user memory.  `sys_read`, `sys_write`, `sys_ioctl` and
`sys_stat` are confined whatever the registers hold.  The other six — `sys_mmap`, `sys_map_fb`,
`sys_grant_pty`, `sys_uptime`, `sys_pipe` and `sys_fstat` — never check, so they are confined
exactly when they do not get as far as their first store, and `StoresUnchecked` says when they do.
-/

set_option autoImplicit false

namespace Borrrdex

open Sys

variable {κ : Type}

/-- The access is a check that accepted a range with the byte at `b` in it. -/
def UserAccess.Covers (b : U64) : UserAccess → Prop
  | .check addr len ok => ok = true ∧ b - addr < len
  | .store _ _ => False

/-- **What a handler owes the kernel.** -/
structure Confined (l : List UserAccess) (code : ℤ) : Prop where
  covered : ∀ before addr bytes after, l = before ++ .store addr bytes :: after →
    ∀ i < bytes.length, ∃ c ∈ before, c.Covers (addr + BitVec.ofNat 64 i)
  refused : ∀ addr len, .check addr len false ∈ l →
    code < 0 ∧ ∀ addr' bytes, .store addr' bytes ∉ l

/-! ## Confined traces -/

theorem confined_nil (code : ℤ) : Confined [] code where
  covered before addr bytes after h := by simp at h
  refused addr len h := by simp at h

/-- A call that only checks has to fail when a check does. -/
theorem confined_of_checks {l : List UserAccess} {code : ℤ}
    (hchecks : ∀ addr bytes, .store addr bytes ∉ l)
    (hcode : ∀ addr len, .check addr len false ∈ l → code < 0) : Confined l code where
  covered before addr bytes after h := by
    refine absurd ?_ (hchecks addr bytes)
    rw [h]
    simp
  refused addr len h := ⟨hcode addr len h, hchecks⟩

/-- Stores that all fall into one accepted range. -/
theorem confined_of_covered {checks : List UserAccess} (stores : List (U64 × List Byte))
    {addr len : U64} (code : ℤ) (hmem : .check addr len true ∈ checks)
    (hchecks : ∀ c ∈ checks, ∃ addr len, c = .check addr len true)
    (hstores : ∀ p ∈ stores, ∀ i < p.2.length, p.1 + BitVec.ofNat 64 i - addr < len) :
    Confined (checks ++ stores.map fun p ↦ .store p.1 p.2) code where
  covered before a bytes after h i hi := by
    have hstore : (.store a bytes : UserAccess) ∈
        checks ++ stores.map fun p ↦ .store p.1 p.2 := by simp [h]
    rcases List.mem_append.mp hstore with hstore | hstore
    · obtain ⟨_, _, hstore⟩ := hchecks _ hstore
      cases hstore
    obtain ⟨p, hp, hpeq⟩ := List.mem_map.mp hstore
    obtain ⟨rfl, rfl⟩ : p.1 = a ∧ p.2 = bytes := by simpa using hpeq
    refine ⟨.check addr len true, ?_, rfl, hstores p hp i hi⟩
    -- the checks come first, so a store is behind all of them
    rcases List.append_eq_append_iff.mp h with ⟨mid, hbefore, -⟩ | ⟨mid, hchecks', hrest⟩
    · exact hbefore ▸ List.mem_append_left _ hmem
    · cases mid with
      | nil =>
        rw [List.append_nil] at hchecks'
        exact hchecks' ▸ hmem
      | cons c mid =>
        rw [List.cons_append, List.cons.injEq] at hrest
        obtain ⟨_, _, hc⟩ := hchecks c (by simp [hchecks'])
        rw [← hrest.1] at hc
        cases hc
  refused a l h := by
    rcases List.mem_append.mp h with h | h
    · obtain ⟨_, _, h⟩ := hchecks _ h
      cases h
    · obtain ⟨_, -, h⟩ := List.mem_map.mp h
      cases h

/-- A store before any check. -/
theorem not_confined_cons (addr : U64) {bytes : List Byte} (l : List UserAccess) (code : ℤ)
    (h : 0 < bytes.length) : ¬ Confined (.store addr bytes :: l) code := by
  intro hc
  obtain ⟨c, hmem, -⟩ := hc.covered [] addr bytes l rfl 0 h
  exact absurd hmem (List.not_mem_nil)

/-! ## The handlers that check -/

section Handlers

variable (abi : SysAbi) (svc : Services κ) (regs : RegisterContext) (s : KernelState κ)

theorem SysAbi.fail_neg (e : Errnum) : abi.fail e < 0 := by
  have := abi.errno_pos e
  rw [SysAbi.fail]
  omega

theorem confined_sysTransfer (transfer : ℕ → U64 → U64 → Kern κ ℤ) :
    Confined (accesses (Handlers.sysTransfer abi svc regs transfer) s)
      (code (Handlers.sysTransfer abi svc regs transfer) s) := by
  rw [Handlers.sysTransfer]
  simp only [accesses_bind, code_bind, accesses_kernel, code_kernel, final_kernel, List.nil_append]
  cases svc.getFileDesc ((scArg0 regs).setWidth 32) s with
  | none => exact confined_nil _
  | some handle =>
    cases hok : svc.checkUsermodePointer (scArg1 regs) (scArg2 regs) s with
    | false =>
      refine confined_of_checks ?_ fun _ _ _ ↦ ?_
      · simp [hok]
      · simp [hok, abi.fail_neg]
    | true =>
      refine confined_of_checks ?_ fun _ _ h ↦ ?_
      · simp [hok]
      · simp [hok] at h

/-- Behind its check `sys_ioctl` stores at most the four bytes of the result. -/
theorem accesses_ioctlChecked :
    accesses (Handlers.ioctlChecked abi svc regs) s = [] ∨
      scArg3 regs ≠ 0 ∧ ∃ ret, accesses (Handlers.ioctlChecked abi svc regs) s =
        [.store (scArg3 regs) (leBytes 4 ret)] := by
  rw [Handlers.ioctlChecked]
  simp only [accesses_bind, accesses_kernel, code_kernel, final_kernel, List.nil_append]
  cases svc.getFileDesc ((scArg0 regs).setWidth 32) s with
  | none => exact .inl rfl
  | some handle =>
    dsimp only
    split
    · exact .inl rfl
    · rw [accesses_bind, accesses_lift, List.nil_append]
      split
      · next h => exact .inr ⟨h.1, _, rfl⟩
      · exact .inl rfl

theorem confined_sysIoctl : Confined (accesses (Handlers.sysIoctl abi svc regs) s)
    (code (Handlers.sysIoctl abi svc regs) s) := by
  have hrest := accesses_ioctlChecked abi svc regs s
  rw [Handlers.sysIoctl]
  split
  · next hnull =>
    rcases hrest with hrest | ⟨hne, -⟩
    · rw [hrest]
      exact confined_nil _
    · exact absurd hnull hne
  · rw [accesses_bind, code_bind, accesses_check, code_check, final_check]
    cases hok : svc.checkUsermodePointer (scArg3 regs) 4 s with
    | false =>
      refine confined_of_checks ?_ fun _ _ _ ↦ ?_
      · simp
      · simp [abi.fail_neg]
    | true =>
      rw [if_neg (by decide)]
      rcases hrest with hrest | ⟨-, ret, hrest⟩
      · rw [hrest]
        refine confined_of_checks ?_ fun _ _ h ↦ ?_
        · simp
        · simp at h
      · rw [hrest]
        refine confined_of_covered [(scArg3 regs, leBytes 4 ret)] _
          (List.mem_singleton.mpr rfl) (by simp) ?_
        simp only [List.mem_singleton, forall_eq, length_leBytes]
        intro i hi
        bv_omega

theorem mem_statStores {addr : U64} {node : FsNode} {p : U64 × List Byte}
    (hp : p ∈ Handlers.statStores addr node) :
    ∃ k n, p.1 = addr + BitVec.ofNat 64 k ∧ p.2.length = n ∧ k + n ≤ 64 := by
  simp only [Handlers.statStores, List.mem_append, List.mem_cons, List.mem_map,
    List.not_mem_nil, or_false] at hp
  rcases hp with ((rfl | rfl) | ⟨mode, -, rfl⟩) | rfl | rfl | rfl | rfl | rfl | rfl | rfl
  · exact ⟨0, 8, by simp, length_leBytes _ _, by decide⟩
  · exact ⟨8, 8, rfl, length_leBytes _ _, by decide⟩
  · exact ⟨16, 4, rfl, length_leBytes _ _, by decide⟩
  · exact ⟨20, 4, rfl, length_leBytes _ _, by decide⟩
  · exact ⟨24, 4, rfl, length_leBytes _ _, by decide⟩
  · exact ⟨28, 4, rfl, length_leBytes _ _, by decide⟩
  · exact ⟨32, 8, rfl, length_leBytes _ _, by decide⟩
  · exact ⟨40, 8, rfl, length_leBytes _ _, by decide⟩
  · exact ⟨48, 8, rfl, length_leBytes _ _, by decide⟩
  · exact ⟨56, 8, rfl, length_leBytes _ _, by decide⟩

theorem confined_sysStat : Confined (accesses (Handlers.sysStat abi svc regs) s)
    (code (Handlers.sysStat abi svc regs) s) := by
  rw [Handlers.sysStat, accesses_bind, code_bind, accesses_check, code_check, final_check]
  cases hok : svc.checkUsermodePointer (scArg0 regs) 64 s with
  | false =>
    refine confined_of_checks ?_ fun _ _ _ ↦ ?_
    · simp
    · simp [abi.fail_neg]
  | true =>
    rw [if_neg (by decide), accesses_bind, code_bind, accesses_check, code_check, final_check]
    cases hok' : svc.checkUsermodePointer (scArg1 regs) 64 s with
    | false =>
      refine confined_of_checks ?_ fun _ _ _ ↦ ?_
      · simp
      · simp [abi.fail_neg]
    | true =>
      rw [if_neg (by decide)]
      simp only [accesses_bind, accesses_kernel, accesses_lift, code_lift, List.nil_append]
      split
      · refine confined_of_checks ?_ fun _ _ h ↦ ?_
        · simp
        · simp at h
      · simp only [accesses_bind, accesses_kernel, accesses_storeAll, accesses_pure,
          List.nil_append, List.append_nil, ← List.append_assoc]
        refine confined_of_covered _ _ (List.mem_append_left _ (List.mem_singleton.mpr rfl))
          (by simp) fun p hp i hi ↦ ?_
        obtain ⟨k, n, hk, hn, hle⟩ := mem_statStores hp
        rw [hk]
        bv_omega

/-! ## The handlers that do not check -/

/-- The call gets as far as a store, and its handler makes no check. -/
def StoresUnchecked : Syscall → Prop
  | .mmap => scArg1 regs ≠ 0#64 ∧ ¬ abi.Refuses (scArg3 regs) ∧ ∃ base ≠ 0#64,
      (svc.allocateAnonymousVmo (scArg1 regs) (scArg2 regs) (abi.fixed (scArg3 regs)) s).1 =
        some base
  | .mapFb => ∃ base ≠ 0, (svc.mapFramebuffer s).1 = some base
  | .grantPty => scArg0 regs ≠ 0
  | .uptime => scArg0 regs ≠ 0 ∨ scArg1 regs ≠ 0
  | .pipe => (scArg1 regs).setWidth 32 &&& ~~~(abi.oCloexec ||| abi.oNonblock) = 0
  | .fstat => (svc.getFileDesc ((scArg1 regs).setWidth 32) s).isSome
  | _ => False

/-- A handler without checks is confined exactly when it does not store. -/
theorem confined_iff_of_unchecked {l : List UserAccess} {code : ℤ} {stores : Prop}
    (hno : ¬ stores → l = [])
    (hyes : stores → ∃ addr bytes rest, 0 < bytes.length ∧ l = .store addr bytes :: rest) :
    Confined l code ↔ ¬ stores := by
  refine ⟨fun hc hs ↦ ?_, fun hs ↦ ?_⟩
  · obtain ⟨addr, bytes, rest, hpos, rfl⟩ := hyes hs
    exact not_confined_cons addr rest code hpos hc
  · rw [hno hs]
    exact confined_nil code

theorem confined_sysMmap_iff : Confined (accesses (Handlers.sysMmap abi svc regs) s)
    (code (Handlers.sysMmap abi svc regs) s) ↔ ¬ StoresUnchecked abi svc regs s .mmap := by
  refine confined_iff_of_unchecked (fun hno ↦ ?_) ?_
  · rw [Handlers.sysMmap]
    split
    · rfl
    next hsize =>
    split
    · rfl
    next hflags =>
    rw [accesses_bind, accesses_lift, code_lift, List.nil_append]
    split
    · rfl
    · next base hbase =>
      rw [if_pos (by_contra fun hne ↦ hno ⟨hsize, hflags, base, hne, hbase⟩)]
      rfl
  · rintro ⟨hsize, hflags, base, hne, hbase⟩
    refine ⟨scArg0 regs, leBytes 8 base, [], by simp, ?_⟩
    rw [Handlers.sysMmap, if_neg hsize, if_neg hflags, accesses_bind, accesses_lift,
      code_lift, hbase,
      List.nil_append]
    dsimp only
    rw [if_neg hne]
    rfl

theorem confined_sysMapFb_iff : Confined (accesses (Handlers.sysMapFb svc regs) s)
    (code (Handlers.sysMapFb svc regs) s) ↔ ¬ StoresUnchecked abi svc regs s .mapFb := by
  refine confined_iff_of_unchecked (fun hno ↦ ?_) ?_
  · rw [Handlers.sysMapFb]
    simp only [accesses_bind, accesses_kernel, accesses_lift, code_lift, final_kernel,
      List.nil_append]
    split
    · rfl
    · next base hbase =>
      rw [if_pos (by_contra fun hne ↦ hno ⟨base, hne, hbase⟩)]
      rfl
  · rintro ⟨base, hne, hbase⟩
    rw [Handlers.sysMapFb]
    simp only [accesses_bind, accesses_kernel, accesses_lift, code_lift, code_kernel, final_kernel,
      hbase, List.nil_append]
    rw [if_neg hne]
    exact ⟨scArg1 regs, leBytes 4 ((svc.videoMode s).width.setWidth 64), _, by simp, rfl⟩

theorem confined_sysGrantPty_iff : Confined (accesses (Handlers.sysGrantPty svc regs) s)
    (code (Handlers.sysGrantPty svc regs) s) ↔ ¬ StoresUnchecked abi svc regs s .grantPty := by
  refine confined_iff_of_unchecked (fun hno ↦ ?_) fun hne ↦ ?_
  · rw [Handlers.sysGrantPty, if_pos (not_not.mp hno)]
    rfl
  · rw [Handlers.sysGrantPty, if_neg hne]
    exact ⟨scArg0 regs, _, [], by simp, rfl⟩

theorem confined_sysUptime_iff : Confined (accesses (Handlers.sysUptime svc regs) s)
    (code (Handlers.sysUptime svc regs) s) ↔ ¬ StoresUnchecked abi svc regs s .uptime := by
  refine confined_iff_of_unchecked (fun hno ↦ ?_) fun hne ↦ ?_
  · rw [StoresUnchecked, not_or, not_not, not_not] at hno
    rw [Handlers.sysUptime]
    simp [hno.1, hno.2]
  · rw [Handlers.sysUptime, accesses_bind, accesses_kernel, code_kernel, List.nil_append]
    by_cases hseconds : scArg0 regs = 0
    · have hmilliseconds := hne.resolve_left (not_not.mpr hseconds)
      dsimp only
      rw [if_neg (not_not.mpr hseconds), if_pos hmilliseconds]
      exact ⟨scArg1 regs, _, _, by simp, rfl⟩
    · dsimp only
      rw [if_pos hseconds]
      exact ⟨scArg0 regs, _, _, by simp, rfl⟩

theorem confined_sysPipe_iff : Confined (accesses (Handlers.sysPipe abi svc regs) s)
    (code (Handlers.sysPipe abi svc regs) s) ↔ ¬ StoresUnchecked abi svc regs s .pipe := by
  rw [StoresUnchecked]
  refine confined_iff_of_unchecked (fun hno ↦ ?_) fun hflags ↦ ?_
  · rw [Handlers.sysPipe]
    dsimp only
    rw [if_pos hno]
    rfl
  · rw [Handlers.sysPipe]
    dsimp only
    rw [if_neg (not_not.mpr hflags)]
    exact ⟨scArg0 regs, _, _, by simp, rfl⟩

theorem confined_sysFstat_iff : Confined (accesses (Handlers.sysFstat abi svc regs) s)
    (code (Handlers.sysFstat abi svc regs) s) ↔ ¬ StoresUnchecked abi svc regs s .fstat := by
  refine confined_iff_of_unchecked (fun hno ↦ ?_) fun hsome ↦ ?_
  · rw [Handlers.sysFstat]
    simp only [accesses_bind, accesses_kernel, code_kernel, final_kernel, List.nil_append]
    rw [Option.not_isSome_iff_eq_none.mp hno]
    rfl
  · obtain ⟨handle, hhandle⟩ := Option.isSome_iff_exists.mp hsome
    rw [Handlers.sysFstat]
    simp only [accesses_bind, accesses_kernel, code_kernel, final_kernel, List.nil_append, hhandle]
    exact ⟨scArg0 regs, leBytes 8 0, _, by simp, rfl⟩

/-- The handler and the model of `sys_mmap` on an address space agree, where the service is the
address space's `allocate_anonymous_vmo`. -/
theorem sysMmap_agrees {κ' ω : Type} (ops : VmOps κ' ω) (l : Regions ω) (m : κ')
    (hsvc : ∀ pos l' m', Regions.allocateAnonymousVmo ops (scArg1 regs) (scArg2 regs)
      (abi.fixed (scArg3 regs)) l m = .ok (pos, l', m') →
      (svc.allocateAnonymousVmo (scArg1 regs) (scArg2 regs) (abi.fixed (scArg3 regs)) s).1 =
        pos.map fun p ↦ (l'.mem p).base)
    {c : ℤ} {stored : Option U64} {l' : Regions ω} {m' : κ'}
    (h : sysMmap abi.toMmapAbi ops (scArg1 regs) (scArg2 regs) (scArg3 regs) l m =
      .ok (c, stored, l', m')) :
    code (Handlers.sysMmap abi svc regs) s = c ∧
      accesses (Handlers.sysMmap abi svc regs) s =
        stored.toList.map fun base ↦ .store (scArg0 regs) (leBytes 8 base) := by
  rw [sysMmap] at h
  rw [Handlers.sysMmap]
  split at h
  · next hsize =>
    cases h
    rw [if_pos hsize]
    exact ⟨by rw [code_pure, SysAbi.fail, abi.errno_einval], rfl⟩
  next hsize =>
  rw [if_neg hsize]
  split at h
  · next hflags =>
    cases h
    rw [if_pos hflags]
    exact ⟨by rw [code_pure, SysAbi.fail, abi.errno_einval], rfl⟩
  next hflags =>
  rw [if_neg hflags]
  obtain ⟨⟨pos, l₁, m₁⟩, halloc, h⟩ := bind_eq_ok.mp h
  rw [code_bind, accesses_bind, code_lift, accesses_lift, hsvc _ _ _ halloc]
  cases pos with
  | none =>
    cases h
    exact ⟨rfl, rfl⟩
  | some pos =>
    dsimp only [Option.map_some] at h ⊢
    split at h
    · next hbase =>
      cases h
      rw [if_pos hbase]
      exact ⟨rfl, rfl⟩
    · next hbase =>
      cases h
      rw [if_neg hbase]
      exact ⟨rfl, rfl⟩

theorem confined_handler_iff (call : Syscall) :
    Confined (accesses (call.handler abi svc regs) s) (code (call.handler abi svc regs) s) ↔
      ¬ StoresUnchecked abi svc regs s call := by
  cases call with
  | read => exact iff_of_true (confined_sysTransfer abi svc regs s _) not_false
  | write => exact iff_of_true (confined_sysTransfer abi svc regs s _) not_false
  | ioctl => exact iff_of_true (confined_sysIoctl abi svc regs s) not_false
  | stat => exact iff_of_true (confined_sysStat abi svc regs s) not_false
  | mmap => exact confined_sysMmap_iff abi svc regs s
  | mapFb => exact confined_sysMapFb_iff abi svc regs s
  | grantPty => exact confined_sysGrantPty_iff abi svc regs s
  | uptime => exact confined_sysUptime_iff abi svc regs s
  | pipe => exact confined_sysPipe_iff abi svc regs s
  | fstat => exact confined_sysFstat_iff abi svc regs s
  | _ =>
    -- lifted from `Kern`, so without accesses
    exact iff_of_true (confined_nil _) not_false

/-- **Which system calls are confined**, whatever `rax` and the registers hold: all but those that
reach a store of one of the six handlers without a check. -/
theorem user_stores_confined_iff (rax : U64) :
    Confined (accesses (syscallHandler abi svc regs rax) s)
        (code (syscallHandler abi svc regs rax) s) ↔
      ∀ call, syscalls[rax.toNat]? = some call → ¬ StoresUnchecked abi svc regs s call := by
  rw [syscallHandler]
  cases h : syscalls[rax.toNat]? with
  | none => exact iff_of_true (confined_nil _) (by simp)
  | some call =>
    simp only [Option.some.injEq, forall_eq']
    exact confined_handler_iff abi svc regs s call

end Handlers

/-! ## A hostile call -/

/-- The numbers of the library's headers. -/
def librarySysAbi : SysAbi where
  toMmapAbi := libraryAbi
  errno
    | .ebadf => 9
    | .efault => 14
    | .einval => 22
    | .erofs => 30
    | .enoent => 2
    | .enotdir => 20
    | .eperm => 1
    | .enosys => 38
  errno_pos e := by cases e <;> decide
  errno_einval := rfl
  oNofollow := 0x20000
  oCreat := 0x40
  oDirectory := 0x10000
  oTrunc := 0x200
  oAccmode := 3
  oRdwr := 2
  oWronly := 1
  oAppend := 0x400
  oCloexec := 0x80000
  oNonblock := 0x800
  atSymlinkNofollow := 0x100
  fioclex := 0x5451
  seekSet := 0
  seekCur := 1
  seekEnd := 2

/-- A kernel for a process that has nothing mapped and nothing open, one second after boot. -/
def bareServices : Services Unit where
  checkUsermodePointer _ _ _ := false
  getFileDesc _ _ := none
  allocateFileDesc _ := pure 3
  replaceFileDesc _ _ := pure 0
  destroyFileDesc _ := pure 1
  fileDescCount _ := 3
  newFd _ := pure 0
  addHandle _ := pure ()
  userString _ _ := []
  getRoot _ := 0
  resolvePath _ _ := pure none
  fsOpen _ _ := pure none
  nodeOpen _ _ := pure 0
  fsRead _ _ _ := pure 0
  fsWrite _ _ _ := pure 0
  ioctl _ _ _ := pure 0
  endProcess := pure ()
  logInfo _ := pure ()
  allocateAnonymousVmo _ _ _ := pure none
  mapFramebuffer := pure none
  videoMode _ := ⟨640, 480, 32, 2560⟩
  grantPty := pure 0
  openWorker _ := pure 0
  openController _ := pure 0
  systemUptime _ := 1
  ticks _ := 1000
  frequency _ := 1000
  createPipe := pure (0, 1)

def bareKernel : KernelState Unit where
  proc := ⟨1, 1, 1, 1, 5, none⟩
  handles _ := ⟨0, 0, 0⟩
  nodes _ := ⟨0, 0, 0, 0⟩
  fsBase := 0
  rest := ()

/-- `sys_uptime` with an address of the kernel: eight bytes are stored there, no check is made and
the call succeeds. -/
theorem uptime_stores_into_kernel : ¬ Confined
    (accesses (syscallHandler librarySysAbi bareServices ⟨0xffffffff80000000, 0, 0, 0⟩ 12)
      bareKernel)
    (code (syscallHandler librarySysAbi bareServices ⟨0xffffffff80000000, 0, 0, 0⟩ 12)
      bareKernel) :=
  not_confined_cons 0xffffffff80000000 [] _ (by decide)

end Borrrdex
