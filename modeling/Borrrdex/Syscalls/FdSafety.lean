import Borrrdex.Proc.DescriptorCalls
import Borrrdex.Syscalls.UserStores

/-!
# No descriptor stops the kernel, but one

A system call takes any `int` for a descriptor.  The table of a process fits into the kernel heap
(`Sized`), so a descriptor is in range, or one past the end, or far off, and of the operations on
the table only `destroy_file_desc` mistakes the second for the first.  `sys_dup` calls it after a
test of its own; `sys_close` does not.

`TableSafe` is what is asked of a descriptor, and `table_safe_iff` says that in every process that a
run of the system can have, every descriptor is safe but the one that equals the number of slots.
-/

set_option autoImplicit false

namespace Borrrdex

open Handlers Sys

variable {k k' : Kernel}

/-! ## Tables that fit -/

/-- A process is running, and the tables fit into the kernel heap. -/
structure Sized (k : Kernel) : Prop where
  current : k.rest.current ∈ k.rest.live
  fits : k.rest.slots ≤ FdTable.maxSlots

/-- Nothing has happened to the tables, and the kernel has not stopped in between. -/
structure SameTables (k k' : Kernel) : Prop where
  live : k'.rest.live = k.rest.live
  current : k'.rest.current = k.rest.current
  tables : k'.rest.tables = k.rest.tables
  halted : k'.rest.halted = k.rest.halted

namespace SameTables

theorem refl (k : Kernel) : SameTables k k := ⟨rfl, rfl, rfl, rfl⟩

theorem trans {k₁ k₂ k₃ : Kernel} (h : SameTables k₁ k₂) (h' : SameTables k₂ k₃) :
    SameTables k₁ k₃ :=
  ⟨h'.live.trans h.live, h'.current.trans h.current, h'.tables.trans h.tables,
    h'.halted.trans h.halted⟩

theorem table (h : SameTables k k') : k'.table = k.table := by
  rw [KernelState.table, h.tables, h.current, KernelState.table]

theorem slots (h : SameTables k k') : k'.rest.slots = k.rest.slots := by
  rw [Descriptors.slots, h.live, h.tables, Descriptors.slots]

theorem sized (h : SameTables k k') (hk : Sized k) : Sized k' :=
  ⟨by rw [h.live, h.current]; exact hk.current, by rw [h.slots]; exact hk.fits⟩

end SameTables

theorem Quiet.sameTables (h : Quiet k k') : SameTables k k' := by
  constructor <;> rw [h.rest]

theorem sameTables_openNode (k : Kernel) (n : ℕ) (flags : U32) :
    SameTables k (k.openNode n flags).2 := ⟨rfl, rfl, rfl, rfl⟩

theorem sameTables_lookedUp (k : Kernel) (l : Lookup) : SameTables k (k.lookedUp l) :=
  ⟨rfl, rfl, rfl, rfl⟩

theorem sameTables_duplicate (k : Kernel) (fd : FsFd) : SameTables k (k.duplicate fd).2 :=
  ⟨rfl, rfl, rfl, rfl⟩

theorem sameTables_close (k : Kernel) (h : Option ℕ) : SameTables k (k.close h) := by
  cases h <;> exact ⟨rfl, rfl, rfl, rfl⟩

theorem Sized.table_le (hk : Sized k) : k.table.length ≤ FdTable.maxSlots :=
  calc (k.rest.tables k.rest.current).length
      ≤ k.rest.slots := Finset.single_le_sum (f := fun p ↦ (k.rest.tables p).length)
        (fun _ _ ↦ Nat.zero_le _) hk.current
    _ ≤ FdTable.maxSlots := hk.fits

/-- Changing a function at one point of a finite set changes a sum over it by as much. -/
theorem sum_comp_update {ι α : Type} [DecidableEq ι] {s : Finset ι} {a : ι} (ha : a ∈ s)
    (g : ι → α) (f : α → ℕ) (b : α) :
    ∑ i ∈ s, f (Function.update g a b i) + f (g a) = ∑ i ∈ s, f (g i) + f b := by
  have hupdate : ∀ i, f (Function.update g a b i) = Function.update (fun i ↦ f (g i)) a (f b) i :=
    fun i ↦ Function.apply_update (fun _ ↦ f) g a b i
  have hall := Finset.add_sum_erase s (fun i ↦ f (g i)) ha
  simp only [hupdate, Finset.sum_update_of_mem ha, Finset.sdiff_singleton_eq_erase]
  omega

theorem slots_setTable (hk : Sized k) (t : FdTable ℕ) :
    (k.setTable t).rest.slots + k.table.length = k.rest.slots + t.length :=
  sum_comp_update hk.current k.rest.tables List.length t

/-- Putting in another table is in order if it is no longer, or if there is room. -/
theorem Sized.setTable (hk : Sized k) {t : FdTable ℕ}
    (ht : t.length ≤ k.table.length ∨ t.length = k.table.length + 1 ∧ k.rest.room = true) :
    Sized (k.setTable t) := by
  refine ⟨hk.current, ?_⟩
  have hslots := slots_setTable hk t
  have hfits := hk.fits
  obtain hle | ⟨heq, hroom⟩ := ht
  · omega
  · have := of_decide_eq_true hroom
    omega

/-! ## The operations on the table -/

/-- The tables fit, and the accessor has not missed. -/
structure InBounds (k : Kernel) : Prop extends Sized k where
  halted : k.rest.halted ≠ some .outOfBounds

theorem SameTables.inBounds (h : SameTables k k') (hk : InBounds k) : InBounds k' :=
  ⟨h.sized hk.toSized, by rw [h.halted]; exact hk.halted⟩

theorem InBounds.settle_ok (hk : InBounds k) {o : FdOutcome ℕ}
    (ht : o.table.length ≤ k.table.length ∨
      o.table.length = k.table.length + 1 ∧ k.rest.room = true) :
    InBounds (k.settle (.ok o)).2 := by
  have hclose := sameTables_close k o.closed
  refine ⟨(hclose.sized hk.toSized).setTable ?_, ?_⟩
  · rw [hclose.table, Descriptors.room, hclose.slots]
    exact ht
  · show (k.close o.closed).rest.halted ≠ _
    rw [hclose.halted]
    exact hk.halted

theorem InBounds.halt (hk : InBounds k) {e : Halt} (he : e ≠ .outOfBounds) :
    InBounds (k.halt e) := by
  refine ⟨⟨hk.current, hk.fits⟩, ?_⟩
  show k.rest.halted.or (some e) ≠ _
  cases hh : k.rest.halted with
  | none => simpa using he
  | some e' =>
    rw [Option.some_or, ← hh]
    exact hk.halted

theorem InBounds.allocateFileDesc (hk : InBounds k) (h : Option ℕ) :
    InBounds (k.allocateFileDesc h).2 := by
  rw [KernelState.allocateFileDesc]
  obtain ⟨i, -, -, heq⟩ | ⟨-, heq⟩ := FdTable.allocateFileDesc_eq k.table k.rest.room h
  · rw [heq]
    exact hk.settle_ok (.inl (by simp))
  · rw [heq]
    split
    · next hroom => exact hk.settle_ok (.inr ⟨by simp, hroom⟩)
    · exact hk.halt (by decide)

theorem InBounds.replaceFileDesc (hk : InBounds k) (fd : U32) (h : ℕ) :
    InBounds (k.replaceFileDesc fd h).2 := by
  rw [KernelState.replaceFileDesc, FdTable.replaceFileDesc_eq hk.table_le]
  split_ifs with hfar hend hroom
  · exact hk.settle_ok (.inl le_rfl)
  · exact hk.settle_ok (.inr ⟨by simp, hroom⟩)
  · exact hk.halt (by decide)
  · exact hk.settle_ok (.inl (by simp))

/-- `destroy_file_desc` stays in bounds if the descriptor is not the number of slots. -/
theorem InBounds.destroyFileDesc (hk : InBounds k) {fd : U32}
    (hfd : fd.toInt ≠ k.table.length) : InBounds (k.destroyFileDesc fd).2 := by
  rw [KernelState.destroyFileDesc, FdTable.destroyFileDesc_eq hk.table_le, if_neg hfd]
  cases FdTable.lookup k.table fd with
  | none => exact hk.settle_ok (.inl le_rfl)
  | some f => exact hk.settle_ok (.inl (by simp))

/-! ## The system calls -/

theorem sameTables_closeAll (l : List (Option ℕ)) (k : Kernel) :
    SameTables k (l.foldl KernelState.close k) := by
  induction l generalizing k with
  | nil => exact .refl k
  | cons h l ih => exact (sameTables_close k h).trans (ih (k.close h))

theorem halted_endProcess (k : Kernel) : k.endProcess.rest.halted = k.rest.halted :=
  (sameTables_closeAll k.table k).halted

theorem slots_endProcess_le (k : Kernel) : k.endProcess.rest.slots ≤ k.rest.slots := by
  have hsame := sameTables_closeAll k.table k
  rw [← hsame.slots]
  simp only [Descriptors.slots, KernelState.endProcess]
  generalize k.table.foldl KernelState.close k = k'
  calc ∑ p ∈ k'.rest.live.erase k'.rest.current,
        (Function.update k'.rest.tables k'.rest.current [] p).length
      ≤ ∑ p ∈ k'.rest.live.erase k'.rest.current, (k'.rest.tables p).length := by
        refine Finset.sum_le_sum fun p hp ↦ ?_
        rw [Function.update_of_ne (Finset.ne_of_mem_erase hp)]
    _ ≤ ∑ p ∈ k'.rest.live, (k'.rest.tables p).length :=
        Finset.sum_le_sum_of_subset (Finset.erase_subset _ _)

theorem Opens.inBounds {n : ℕ} (h : Opens k n k') (hk : InBounds k) : InBounds k' := by
  obtain ⟨hquiet⟩ := h
  exact (((sameTables_openNode k n _).trans hquiet.sameTables).inBounds hk).allocateFileDesc _

theorem OpensPipe.inBounds {n : ℕ} (h : OpensPipe k n k') (hk : InBounds k) : InBounds k' := by
  obtain ⟨rfl, hquiet⟩ := h
  have hopened := (sameTables_openNode k n 0).trans (sameTables_openNode _ (n + 1) 0)
  exact (((hopened.trans hquiet.sameTables).inBounds hk).allocateFileDesc _).allocateFileDesc _

theorem InBounds.attach (hk : InBounds k) (n : ℕ) (fd : U32) : InBounds (k.attach n fd) :=
  ((sameTables_openNode k n 0).inBounds hk).replaceFileDesc fd _

variable (abi : SysAbi) (env : Env) (regs : RegisterContext)

theorem InBounds.sysDup (hk : InBounds k) : InBounds (sysDup abi env.services regs k).2 := by
  obtain ⟨-, heq⟩ | ⟨-, h, fd, -, -, hcase⟩ := final_sysDup abi env regs k
  · rw [heq]
    exact hk
  · have hsame := sameTables_duplicate k fd
    have hdup := hsame.inBounds hk
    split_ifs at hcase with hreq hcount
    · rw [hcase]
      exact hdup
    · rw [hcase]
      refine (hdup.destroyFileDesc ?_).replaceFileDesc _ _
      -- the descriptor is below the number of slots, which `sys_dup` has tested
      have hlt : (intArg (scArg2 regs)).toNat < k.table.length := by
        rw [← FdTable.toNat_fileDescCount hk.table_le]
        exact BitVec.lt_def.mp (BitVec.not_le.mp hcount)
      rw [FdTable.toNat_of_nonneg hreq] at hlt
      rw [hsame.table]
      omega
    · rw [hcase]
      exact hdup.allocateFileDesc _

theorem InBounds.sysOpen (hk : InBounds k) : InBounds (sysOpen abi env.services regs k).2 := by
  obtain hroot | ⟨l, hfail | ⟨n, -, hopens⟩⟩ := final_sysOpen abi env regs k
  · exact hroot.inBounds hk
  · rw [hfail]
    exact (sameTables_lookedUp k l).inBounds hk
  · exact hopens.inBounds ((sameTables_lookedUp k l).inBounds hk)

theorem InBounds.sysStat (hk : InBounds k) :
    InBounds ((sysStat abi env.services regs).final k) := by
  obtain heq | ⟨l, heq⟩ := final_sysStat abi env regs k
  · rw [heq]
    exact hk
  · rw [heq]
    exact (sameTables_lookedUp k l).inBounds hk

theorem InBounds.sysPipe (hk : InBounds k) :
    InBounds ((sysPipe abi env.services regs).final k) := by
  obtain heq | hopens := final_sysPipe abi env regs k
  · rw [heq]
    exact hk
  · exact hopens.inBounds ⟨⟨hk.current, hk.fits⟩, hk.halted⟩

theorem InBounds.sysGrantPty (hk : InBounds k) :
    InBounds ((sysGrantPty env.services regs).final k) := by
  obtain heq | hopens := final_sysGrantPty env regs k
  · rw [heq]
    exact hk
  · have hpty : InBounds k.grantPty.2 := ⟨⟨hk.current, hk.fits⟩, hk.halted⟩
    exact hopens.inBounds (((hpty.attach _ 0).attach _ 1).attach _ 2)

/-- **One system call.**  Only `sys_close` can make the accessor miss. -/
theorem handler_inBounds (hk : InBounds k) {call : Syscall}
    (hclose : call = .close → (intArg (scArg0 regs)).toInt ≠ k.table.length) :
    ((call.handler abi env.services regs).final k).rest.slots ≤ FdTable.maxSlots ∧
      ((call.handler abi env.services regs).final k).rest.halted ≠ some .outOfBounds := by
  suffices h : call ≠ .exit → InBounds ((call.handler abi env.services regs).final k) by
    by_cases hexit : call = .exit
    · subst hexit
      refine ⟨(slots_endProcess_le k).trans hk.fits, ?_⟩
      show k.endProcess.rest.halted ≠ _
      rw [halted_endProcess]
      exact hk.halted
    · exact ⟨(h hexit).fits, (h hexit).halted⟩
  intro hexit
  by_cases hquiet : call.touchesNodes = false
  · exact (quiet_handler abi env regs k hquiet).sameTables.inBounds hk
  · cases call with
    | openFile => exact hk.sysOpen abi env regs
    | close => exact hk.destroyFileDesc (hclose rfl)
    | grantPty => exact hk.sysGrantPty env regs
    | dup => exact hk.sysDup abi env regs
    | pipe => exact hk.sysPipe abi env regs
    | stat => exact hk.sysStat abi env regs
    | exit => exact absurd rfl hexit
    | _ => exact absurd rfl hquiet

/-! ## Runs -/

theorem InBounds.slots_destroyFileDesc_le (hk : InBounds k) (fd : U32) :
    (k.destroyFileDesc fd).2.rest.slots ≤ FdTable.maxSlots := by
  by_cases hfd : fd.toInt = k.table.length
  · rw [KernelState.destroyFileDesc, FdTable.destroyFileDesc_eq hk.table_le, if_pos hfd]
    exact hk.fits
  · exact (hk.destroyFileDesc hfd).fits

theorem InBounds.openStandard (hk : InBounds k) (dev : Option ℕ) :
    InBounds (k.openStandard dev) := by
  cases dev with
  | none => exact hk.allocateFileDesc none
  | some n => exact ((sameTables_openNode k n 0).inBounds hk).allocateFileDesc _

theorem inBounds_enroll {p : ℕ} (hfits : k.rest.slots ≤ FdTable.maxSlots)
    (hhalted : k.rest.halted = none) (hp : p ∉ k.rest.live) : InBounds (k.enroll p) := by
  refine ⟨⟨Finset.mem_insert_self .., ?_⟩, by simp [KernelState.enroll, hhalted]⟩
  show ∑ i ∈ insert p k.rest.live, (Function.update k.rest.tables p [] i).length ≤ _
  rw [Finset.sum_insert hp, Function.update_self, List.length_nil, Nat.zero_add]
  refine (Finset.sum_congr rfl fun i hi ↦ ?_).trans_le hfits
  rw [Function.update_of_ne (ne_of_mem_of_not_mem hi hp)]

variable {abi}

theorem inBounds_switchTo {p : ℕ} (hfits : k.rest.slots ≤ FdTable.maxSlots)
    (hhalted : k.rest.halted = none) (hp : p ∈ k.rest.live) : InBounds (k.switchTo p) :=
  ⟨⟨hp, hfits⟩, by simp [KernelState.switchTo, hhalted]⟩

/-- In a run the tables always fit. -/
theorem KernelState.Reaches.fits {P : Kernel → KernelMove → Prop} (h : Reaches abi P k) :
    k.rest.slots ≤ FdTable.maxSlots := by
  induction h with
  | boot h =>
    rw [Descriptors.slots, h.live]
    exact Nat.zero_le _
  | @step k k' mv _ _ hs ih =>
    cases mv with
    | call p env call regs =>
      obtain ⟨⟨hhalted, hp⟩, ⟨⟩⟩ := Option.ite_none_right_eq_some.mp hs
      have hk := inBounds_switchTo ih hhalted hp
      by_cases hclose : call = .close
      · subst hclose
        exact hk.slots_destroyFileDesc_le _
      · exact (handler_inBounds abi env regs hk fun h ↦ absurd h hclose).1
    | spawn p nullDev logDev =>
      obtain ⟨⟨hhalted, hp, -⟩, ⟨⟩⟩ := Option.ite_none_right_eq_some.mp hs
      exact ((((inBounds_enroll ih hhalted hp).openStandard nullDev).openStandard
        logDev).openStandard logDev).fits
    | kill p =>
      obtain ⟨-, ⟨⟩⟩ := Option.ite_none_right_eq_some.mp hs
      exact (slots_endProcess_le (k.switchTo p)).trans ih

/-! ## What is asked of a descriptor -/

/-- What `allocate_file_desc` is to do: fill the least unused slot from the fourth on, or add one,
and say which. -/
def FdTable.Allocates (t : FdTable ℕ) (handle : Option ℕ) (o : FdOutcome ℕ) : Prop :=
  ∃ i : ℕ, o.ret.toInt = i ∧ (∀ j, 3 ≤ j → j < i → ∃ h, t[j]? = some (some h)) ∧
    (3 ≤ i ∧ t[i]? = some none ∧ o.table = t.set i handle ∨
      i = t.length ∧ o.table = t ++ [handle])

/-- **A safe descriptor**, for the calling process.  The accessor does not miss, whichever operation
or system call is given the descriptor; `sys_close` fails and leaves the table alone exactly when
the descriptor stands for nothing, and empties its slot otherwise; and the next descriptor allocated
is an unused one. -/
structure TableSafe (abi : SysAbi) (k : Kernel) (fd : U32) : Prop where
  get : FdTable.getFileDesc k.table fd ≠ .error .outOfBounds
  destroy : FdTable.destroyFileDesc k.table fd ≠ .error .outOfBounds
  replace : ∀ room ptr, FdTable.replaceFileDesc room k.table fd ptr ≠ .error .outOfBounds
  calls : ∀ (env : Env) (regs : RegisterContext) (call : Syscall),
    (call = .close → intArg (scArg0 regs) = fd) →
    ((call.handler abi env.services regs).final k).rest.halted ≠ some .outOfBounds
  close : ∀ (env : Env) (regs : RegisterContext), intArg (scArg0 regs) = fd →
    ((sysClose abi env.services regs k).1 = abi.fail .ebadf ∧
      (sysClose abi env.services regs k).2.rest.tables = k.rest.tables ↔
        FdTable.lookup k.table fd = none) ∧
    (FdTable.lookup k.table fd ≠ none → (sysClose abi env.services regs k).1 = 0 ∧
      (sysClose abi env.services regs k).2.rest.tables =
        Function.update k.rest.tables k.rest.current (k.table.set fd.toInt.toNat none))
  allocate : ∀ room handle,
    (∃ o, FdTable.allocateFileDesc room k.table handle = .ok o ∧
      FdTable.Allocates k.table handle o) ∨
    room = false ∧ FdTable.allocateFileDesc room k.table handle = .error .outOfMemory

theorem FdTable.used_of_not_free {t : FdTable ℕ} {j : ℕ} (h : ¬ t.Free j) (hj : 3 ≤ j)
    (hlt : j < t.length) : ∃ h, t[j]? = some (some h) := by
  rw [List.getElem?_eq_getElem hlt]
  cases hslot : t[j] with
  | none => exact absurd ⟨hj, by rw [List.getElem?_eq_getElem hlt, hslot]⟩ h
  | some f => exact ⟨f, rfl⟩

theorem toInt_ofNat_32 {i : ℕ} (h : i ≤ FdTable.maxSlots) : (BitVec.ofNat 32 i).toInt = i := by
  simp only [FdTable.maxSlots] at h
  rw [BitVec.toInt_eq_toNat_cond, BitVec.toNat_ofNat, Nat.mod_eq_of_lt (by omega),
    if_pos (by omega)]

theorem FdTable.allocates_or_full {t : FdTable ℕ} (ht : t.length ≤ maxSlots) (room : Bool)
    (handle : Option ℕ) :
    (∃ o, t.allocateFileDesc room handle = .ok o ∧ t.Allocates handle o) ∨
      room = false ∧ t.allocateFileDesc room handle = .error .outOfMemory := by
  obtain ⟨i, hfree, hleast, heq⟩ | ⟨hnone, heq⟩ := t.allocateFileDesc_eq room handle
  · have hlt := hfree.lt_length
    refine .inl ⟨_, heq, i, toInt_ofNat_32 (by omega), fun j hj hji ↦ ?_,
      .inl ⟨hfree.1, hfree.2, rfl⟩⟩
    exact used_of_not_free (hleast j hji) hj (by omega)
  · cases room with
    | true =>
      refine .inl ⟨_, heq, t.length, toInt_ofNat_32 ht, fun j hj hlt ↦ ?_, .inr ⟨rfl, rfl⟩⟩
      exact used_of_not_free (hnone j) hj hlt
    | false => exact .inr ⟨rfl, heq⟩

theorem sysClose_safe (hk : InBounds k) {fd : U32} (hfd : fd.toInt ≠ k.table.length)
    (hregs : intArg (scArg0 regs) = fd) :
    ((sysClose abi env.services regs k).1 = abi.fail .ebadf ∧
      (sysClose abi env.services regs k).2.rest.tables = k.rest.tables ↔
        FdTable.lookup k.table fd = none) ∧
    (FdTable.lookup k.table fd ≠ none → (sysClose abi env.services regs k).1 = 0 ∧
      (sysClose abi env.services regs k).2.rest.tables =
        Function.update k.rest.tables k.rest.current (k.table.set fd.toInt.toNat none)) := by
  have hneg : (0 : ℤ) ≠ abi.fail .ebadf := (abi.fail_neg .ebadf).ne'
  have hsame : ∀ h, (k.close h).rest.tables = k.rest.tables :=
    fun h ↦ (sameTables_close k h).tables
  rw [sysClose_eq, hregs, KernelState.destroyFileDesc, FdTable.destroyFileDesc_eq hk.table_le,
    if_neg hfd]
  cases hlookup : FdTable.lookup k.table fd with
  | none =>
    refine ⟨iff_of_true ⟨rfl, ?_⟩ rfl, fun h ↦ absurd rfl h⟩
    exact Function.update_eq_self _ _
  | some f =>
    refine ⟨iff_of_false (fun h ↦ hneg h.1) (by simp), fun _ ↦ ⟨rfl, ?_⟩⟩
    show Function.update (k.close (some f)).rest.tables _ _ = _
    rw [hsame]
    rfl

theorem InBounds.tableSafe (hk : InBounds k) {fd : U32} (hfd : fd.toInt ≠ k.table.length) :
    TableSafe abi k fd where
  get := by
    rw [FdTable.getFileDesc_eq hk.table_le]
    simp
  destroy := by
    rw [FdTable.destroyFileDesc_eq hk.table_le, if_neg hfd]
    split <;> simp
  replace room ptr := by
    rw [FdTable.replaceFileDesc_eq hk.table_le]
    split_ifs <;> simp
  calls env regs call hclose := (handler_inBounds abi env regs hk fun h ↦ hclose h ▸ hfd).2
  close env regs hregs := sysClose_safe env regs hk hfd hregs
  allocate := FdTable.allocates_or_full hk.table_le

/-- **A descriptor is safe exactly when it is not the number of slots**, in every process of every
state that a run of the system reaches. -/
theorem table_safe_iff {P : Kernel → KernelMove → Prop} (h : KernelState.Reaches abi P k)
    (hhalted : k.rest.halted = none) {p : ℕ} (hp : p ∈ k.rest.live) (fd : U32) :
    TableSafe abi (k.switchTo p) fd ↔ fd.toInt ≠ (k.rest.tables p).length := by
  have hk : InBounds (k.switchTo p) := inBounds_switchTo h.fits hhalted hp
  constructor
  · intro hsafe heq
    refine hsafe.destroy ?_
    rw [FdTable.destroyFileDesc_eq hk.table_le]
    exact if_pos heq
  · exact fun hfd ↦ hk.tableSafe hfd

/-- A kernel just started, with the root and one device. -/
def bootedKernel : Kernel where
  proc := { uid := 0, gid := 0, euid := 0, egid := 0, pid := 1, parent := none }
  handles _ := { node := 0, pos := 0, mode := 0 }
  nodes _ := { inode := 0, uid := 0, size := 0, flags := 0x4000 }
  fsBase := 0
  rest :=
    { live := ∅
      tables := fun _ ↦ []
      current := 0
      counted := fun n ↦ if n < 2 then some (.new .device) else none
      nextNode := 2
      nextFd := 0
      halted := none }

theorem bootedKernel_booted : bootedKernel.Booted where
  live := rfl
  halted := rfl
  root := rfl
  counted n node h := by
    obtain ⟨hlt, ⟨⟩⟩ := Option.ite_none_right_eq_some.mp h
    exact ⟨hlt, rfl, rfl, rfl⟩

/-- The first process is started, and does not find `/dev/klog`. -/
def firstProcess : Kernel := bootedKernel.spawn 1 (some 1) none

theorem firstProcess_reached (P : Kernel → KernelMove → Prop)
    (hP : P bootedKernel (.spawn 1 (some 1) none)) :
    KernelState.Reaches librarySysAbi P firstProcess := by
  have hstep : KernelState.step librarySysAbi bootedKernel (.spawn 1 (some 1) none) =
      some firstProcess := by
    rw [KernelState.step]
    exact if_pos ⟨rfl, Finset.notMem_empty 1, by simpa using ⟨_, rfl, rfl⟩, by simp⟩
  exact .step (.boot bootedKernel_booted) hP hstep

/-- The first process has three slots, and a negative descriptor does no harm there. -/
theorem minus_one_safe : TableSafe librarySysAbi (firstProcess.switchTo 1) (-1) :=
  (table_safe_iff (firstProcess_reached (fun _ _ ↦ True) trivial) rfl (by decide) (-1)).mpr
    (by decide)

/-- There `sys_close(3)` stops the machine. -/
theorem three_not_safe : ¬ ∀ k p fd, KernelState.Reaches librarySysAbi (fun _ _ ↦ True) k →
    k.rest.halted = none → p ∈ k.rest.live → TableSafe librarySysAbi (k.switchTo p) fd := by
  intro h
  have hsafe := h firstProcess 1 3 (firstProcess_reached _ trivial) rfl (by decide)
  exact hsafe.destroy rfl

end Borrrdex
