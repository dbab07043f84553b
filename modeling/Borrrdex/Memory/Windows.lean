import Borrrdex.Memory.KernelHalf

/-!
# The windows of the kernel

`initialize_virtual_memory` maps the first 4 GB of physical memory at `IO_VIRTUAL_BASE`, for device
registers, and the first GB at `KERNEL_VIRTUAL_BASE`, for the kernel image, both in large pages; the
GB above belongs to the heap.  `kernel_windows` says that the hardware, walking from `kernel_pml4`,
finds each physical address where `get_io_mapping` or the base puts it, and that the three windows
are apart.
-/

set_option autoImplicit false

namespace Borrrdex

open PageWalk PageMap

/-- `get_io_mapping`.  Above 4 GB it logs an error. -/
def getIoMapping (addr : U64) : U64 :=
  if addr > 0xFFFFFFFF#64 then 0xFFFFFFFF#64 else addr + ioVirtualBase

/-- The physical address of `v` in a page of so many levels. -/
def inPage (v : U64) (page : ℕ × U64) : ℕ :=
  4096 * (frameOf page.2 / 512 ^ page.1 * 512 ^ page.1) + v.toNat % (4096 * 512 ^ page.1)

/-- **What the hardware makes of an address**, walking from `kernel_pml4`. -/
def KernelImage.physicalAddress (img : KernelImage) (k : KernelMem) (v : U64) : Option ℕ :=
  ((walk entryFormat (img.hwRam k) (img.frame .pml4) (walkPath v)).page entryFormat).map (inPage v)

/-- Where `get_io_mapping` maps. -/
def ioWindow : Set U64 := {v | ∃ p, p.toNat < 2 ^ 32 ∧ v = getIoMapping p}

/-- Where the kernel image is. -/
def imageWindow : Set U64 := {v | ∃ p : U64, p.toNat < 2 ^ 30 ∧ v = kernelVirtualBase + p}

/-- The addresses with `KERNEL_HEAP_PML4_INDEX` and `KERNEL_HEAP_PDPT_INDEX`. -/
def heapWindow : Set U64 := {v | pml4Index v = 511 ∧ pdptIndex v = 511}

theorem toNat_getIoMapping {p : U64} (hp : p.toNat < 2 ^ 32) :
    (getIoMapping p).toNat = 0xFFFFFFFE80000000 + p.toNat := by
  rw [getIoMapping, if_neg (by bv_omega), ioVirtualBase, kernelVirtualBase]
  bv_omega

theorem toNat_kernelVirtualBase_add {p : U64} (hp : p.toNat < 2 ^ 30) :
    (kernelVirtualBase + p).toNat = 0xFFFFFFFF80000000 + p.toNat := by
  rw [kernelVirtualBase]
  bv_omega

namespace KernelImage

/-! ## The entries -/

/-- The products are 32-bit ones in the source, and do not overflow. -/
theorem kernelDir_eq {j : ℕ} (hj : j < 512) : kernelDir j =
    (0x200000#32 * BitVec.ofNat 32 j).setWidth 64 |||
      (pde2M ||| tableWriteable ||| tablePresent) := by
  rw [kernelDir]
  congr 1
  bv_omega

theorem ioDir_eq {i j : ℕ} (hi : i < 4) (hj : j < 512) : ioDir i j =
    (0x40000000#32 * BitVec.ofNat 32 i + 0x200000#32 * BitVec.ofNat 32 j).setWidth 64 |||
      (pde2M ||| tableWriteable ||| tablePresent ||| pdeCacheDisabled) := by
  rw [ioDir]
  congr 1
  bv_omega

/-- An entry for a large page at `base`. -/
theorem largeEntry (base : ℕ) (hbase : base < 2 ^ 52) (flags : U64)
    (hframe : flags &&& pageFrame = 0#64) (hp : present flags = true) (hl : large flags = true) :
    present (BitVec.ofNat 64 base ||| flags) = true ∧
      large (BitVec.ofNat 64 base ||| flags) = true ∧
      frameOf (BitVec.ofNat 64 base ||| flags) = base / 4096 := by
  refine ⟨by rw [present_or, hp, Bool.or_true], by rw [large_or, hl, Bool.or_true], ?_⟩
  rw [frameOf_or hframe, frameOf_eq, BitVec.toNat_ofNat]
  omega

variable (img : KernelImage)

theorem kernelPdpt_image :
    img.kernelPdpt 510 = img.addr .dir ||| (tableWriteable ||| tablePresent) := by
  have hio : pdptIndex ioVirtualBase = 506 := by decide
  have himage : pdptIndex kernelVirtualBase = 510 := by decide
  rw [kernelPdpt]
  simp only [show List.finRange 4 = [0, 1, 2, 3] by decide, List.foldl_cons, List.foldl_nil]
  rw [hio, himage, Function.update_of_ne (by decide), Function.update_of_ne (by decide),
    Function.update_of_ne (by decide), Function.update_of_ne (by decide),
    Function.update_of_ne (by decide), Function.update_of_ne (by decide), Function.update_self]

theorem kernelPdpt_io (i : Fin 4) :
    img.kernelPdpt (506 + i) = img.addr (.ioDir i) ||| (tableWriteable ||| tablePresent) := by
  have hio : pdptIndex ioVirtualBase = 506 := by decide
  rw [kernelPdpt]
  simp only [show List.finRange 4 = [0, 1, 2, 3] by decide, List.foldl_cons, List.foldl_nil]
  rw [hio]
  obtain rfl | rfl | rfl | rfl : i = 0 ∨ i = 1 ∨ i = 2 ∨ i = 3 := by omega
  all_goals simp [Function.update_apply]

/-- An entry of `kernel_pdpt` that frames a directory. -/
theorem directoryEntry (t : ImageTable) :
    present (img.addr t ||| (tableWriteable ||| tablePresent)) = true ∧
      large (img.addr t ||| (tableWriteable ||| tablePresent)) = false ∧
      frameOf (img.addr t ||| (tableWriteable ||| tablePresent)) = img.frame t := by
  refine ⟨?_, ?_, ?_⟩
  · rw [present_or, show present (tableWriteable ||| tablePresent) = true by decide, Bool.or_true]
  · have haddr : large (img.addr t) = false := by simp [large_eq, addr, blockAddr]
    rw [large_or, haddr]
    decide
  · rw [frameOf_or (by decide), addr, frameOf_blockAddr (img.frame_lt t)]

/-! ## The walk -/

variable (k : KernelMem) {v : U64}

theorem hwRam_initialized {t : ImageTable} {words : ℕ → U64} (hdir : t ≠ .heapDir)
    (htable : ∀ i, t ≠ .heapTable i)
    (h : (img.initializeVirtualMemory k).ram (img.frame t) = words) :
    img.hwRam (img.initializeVirtualMemory k) (img.frame t) = words :=
  (img.hwRam_table t hdir htable).trans h

/-- An address whose directory is one of large pages. -/
theorem physicalAddress_large {t : ImageTable} {words : ℕ → U64} {base : ℕ}
    (hpml4 : pml4Index v = 511)
    (hpdpt : img.kernelPdpt (pdptIndex v) = img.addr t ||| (tableWriteable ||| tablePresent))
    (hwords : img.hwRam (img.initializeVirtualMemory k) (img.frame t) = words)
    (hpresent : present (words (pdeIndex v)) = true) (hlarge : large (words (pdeIndex v)) = true)
    (hframe : frameOf (words (pdeIndex v)) = base) :
    img.physicalAddress (img.initializeVirtualMemory k) v =
      some (4096 * (base / 512 * 512) + v.toNat % 0x200000) := by
  obtain ⟨hp4, hf4⟩ := img.kernelPml4_last
  obtain ⟨hp3, hl3, hf3⟩ := img.directoryEntry t
  have hrow4 : img.hwRam (img.initializeVirtualMemory k) (img.frame .pml4) = img.kernelPml4 := by
    refine img.hwRam_initialized k (by simp) (by simp) ?_
    simp [initializeVirtualMemory, img.tableAt_eq_some.mpr rfl]
  have hrow3 : img.hwRam (img.initializeVirtualMemory k) (img.frame .pdpt) = img.kernelPdpt := by
    refine img.hwRam_initialized k (by simp) (by simp) ?_
    simp [initializeVirtualMemory, img.tableAt_eq_some.mpr rfl]
  have hwalk : walk entryFormat (img.hwRam (img.initializeVirtualMemory k)) (img.frame .pml4)
      (walkPath v) = .large 1 (words (pdeIndex v)) := by
    rw [walkPath, hpml4, walk_table (by rw [hrow4]; exact hp4) rfl, hrow4,
      show entryFormat.frame (img.kernelPml4 511) = img.frame .pdpt from hf4,
      walk_table (by rw [hrow3, hpdpt]; exact hp3) (by rw [hrow3, hpdpt]; exact hl3), hrow3, hpdpt,
      show entryFormat.frame (img.addr t ||| (tableWriteable ||| tablePresent)) = img.frame t
        from hf3,
      walk_large (by rw [hwords]; exact hpresent) (by rw [hwords]; exact hlarge), hwords]
    rfl
  rw [physicalAddress, hwalk, End.page, Option.map_some, inPage, hframe, Nat.pow_one]

/-- The window of the kernel image. -/
theorem physicalAddress_image {p : U64} (hp : p.toNat < 2 ^ 30) :
    img.physicalAddress (img.initializeVirtualMemory k) (kernelVirtualBase + p) = some p.toNat := by
  have hv := toNat_kernelVirtualBase_add hp
  have hpml4 : pml4Index (kernelVirtualBase + p) = 511 := by
    rw [pml4Index_eq, hv]
    omega
  have hpdpt : pdptIndex (kernelVirtualBase + p) = 510 := by
    rw [pdptIndex_eq, hv]
    omega
  have hpde : pdeIndex (kernelVirtualBase + p) = p.toNat / 2 ^ 21 := by
    rw [pdeIndex_eq, hv]
    omega
  have hdir : img.hwRam (img.initializeVirtualMemory k) (img.frame .dir) = kernelDir := by
    refine img.hwRam_initialized k (by simp) (by simp) ?_
    simp [initializeVirtualMemory, img.tableAt_eq_some.mpr rfl]
  obtain ⟨hpresent, hlarge, hframe⟩ := largeEntry (0x200000 * (p.toNat / 2 ^ 21)) (by omega)
    (pde2M ||| tableWriteable ||| tablePresent) (by decide) (by decide) (by decide)
  rw [← hpde] at hpresent hlarge hframe
  rw [img.physicalAddress_large k hpml4 (by rw [hpdpt, kernelPdpt_image]) hdir hpresent
    hlarge hframe,
    hpde, hv]
  congr 1
  omega

/-- The window of the devices. -/
theorem physicalAddress_io {p : U64} (hp : p.toNat < 2 ^ 32) :
    img.physicalAddress (img.initializeVirtualMemory k) (getIoMapping p) = some p.toNat := by
  have hv := toNat_getIoMapping hp
  have hi : p.toNat / 2 ^ 30 < 4 := by omega
  have hpml4 : pml4Index (getIoMapping p) = 511 := by
    rw [pml4Index_eq, hv]
    omega
  have hpdpt : pdptIndex (getIoMapping p) = 506 + p.toNat / 2 ^ 30 := by
    rw [pdptIndex_eq, hv]
    omega
  have hpde : pdeIndex (getIoMapping p) = p.toNat / 2 ^ 21 % 512 := by
    rw [pdeIndex_eq, hv]
    omega
  have hdir : img.hwRam (img.initializeVirtualMemory k)
      (img.frame (.ioDir ⟨p.toNat / 2 ^ 30, hi⟩)) = ioDir (p.toNat / 2 ^ 30) := by
    refine img.hwRam_initialized k (by simp) (by simp) ?_
    simp [initializeVirtualMemory, img.tableAt_eq_some.mpr rfl]
  obtain ⟨hpresent, hlarge, hframe⟩ :=
    largeEntry (0x40000000 * (p.toNat / 2 ^ 30) + 0x200000 * (p.toNat / 2 ^ 21 % 512)) (by omega)
      (pde2M ||| tableWriteable ||| tablePresent ||| pdeCacheDisabled) (by decide) (by decide)
      (by decide)
  rw [← hpde] at hpresent hlarge hframe
  rw [img.physicalAddress_large k hpml4 (by rw [hpdpt]; exact img.kernelPdpt_io ⟨_, hi⟩) hdir
    hpresent hlarge hframe, hpde, hv]
  congr 1
  omega

end KernelImage

/-! ## The windows are apart -/

theorem pdptIndex_of_mem_ioWindow {v : U64} (h : v ∈ ioWindow) : pdptIndex v < 510 := by
  obtain ⟨p, hp, rfl⟩ := h
  rw [pdptIndex_eq, toNat_getIoMapping hp]
  omega

theorem pdptIndex_of_mem_imageWindow {v : U64} (h : v ∈ imageWindow) : pdptIndex v = 510 := by
  obtain ⟨p, hp, rfl⟩ := h
  rw [pdptIndex_eq, toNat_kernelVirtualBase_add hp]
  omega

/-- **The kernel's windows**, as `initialize_virtual_memory` sets them up. -/
theorem kernel_windows (img : KernelImage) (k : KernelMem) :
    (∀ p : U64, p.toNat < 2 ^ 32 →
      img.physicalAddress (img.initializeVirtualMemory k) (getIoMapping p) = some p.toNat) ∧
    (∀ p : U64, p.toNat < 2 ^ 30 →
      img.physicalAddress (img.initializeVirtualMemory k) (kernelVirtualBase + p) =
        some p.toNat) ∧
    Disjoint ioWindow imageWindow ∧ Disjoint ioWindow heapWindow ∧
      Disjoint imageWindow heapWindow := by
  refine ⟨fun p ↦ img.physicalAddress_io k, fun p ↦ img.physicalAddress_image k, ?_, ?_, ?_⟩
  · refine Set.disjoint_left.mpr fun v hio himage ↦ ?_
    have hlt := pdptIndex_of_mem_ioWindow hio
    rw [pdptIndex_of_mem_imageWindow himage] at hlt
    exact lt_irrefl _ hlt
  · refine Set.disjoint_left.mpr fun v hio hheap ↦ ?_
    have hlt := pdptIndex_of_mem_ioWindow hio
    rw [hheap.2] at hlt
    omega
  · refine Set.disjoint_left.mpr fun v himage hheap ↦ ?_
    have heq := pdptIndex_of_mem_imageWindow himage
    rw [hheap.2] at heq
    omega

/-- The registers of the local interrupt controller. -/
theorem apic_window :
    sampleImage.physicalAddress sampleStart (getIoMapping 0xFEE00000#64) = some 0xFEE00000 :=
  (kernel_windows sampleImage (fourMegMem fun _ _ ↦ 0#64)).1 0xFEE00000#64 (by decide)

end Borrrdex
