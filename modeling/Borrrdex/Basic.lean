import Mathlib.Algebra.Group.Nat.Defs
import Mathlib.Logic.Function.Basic

/-!
# Machine words and the ways the kernel stops

The kernel is C++ for x86-64.  Its `uint64_t`, `uintptr_t` and `size_t` are `U64` here and its
`uint32_t` is `U32`, so that every addition wraps where the source's does.  Loop counters and
array indices that stay far below the width of their type are plain `Nat`.

Nothing in the kernel returns from a failed `assert` or from `kernel_panic`, so a function that
can reach one returns `Except Halt`.
-/

set_option autoImplicit false

namespace Borrrdex

/-- `uint64_t`. -/
abbrev U64 := BitVec 64

/-- `uint32_t`. -/
abbrev U32 := BitVec 32

/-- `uint8_t`, and `char`. -/
abbrev Byte := BitVec 8

/-- `KERNEL_VIRTUAL_BASE`. -/
def kernelVirtualBase : U64 := 0xFFFFFFFF80000000#64

/-- Division by the block size, which is also the page size. -/
theorem toNat_div_4096 (x : U64) : (x / 4096).toNat = x.toNat / 4096 := BitVec.toNat_udiv

/-- The address of block `b`, as `allocate_physical_block` computes it. -/
def blockAddr (b : Nat) : U64 := BitVec.ofNat 64 b <<< 12

theorem toNat_blockAddr {b : Nat} (hb : b < 2 ^ 52) : (blockAddr b).toNat = 4096 * b := by
  rw [blockAddr, BitVec.toNat_shiftLeft, BitVec.toNat_ofNat, Nat.shiftLeft_eq]
  omega

/-- The number of the block an address lies in. -/
theorem toNat_shiftRight_12 (x : U64) : (x >>> 12).toNat = x.toNat / 4096 := by
  rw [BitVec.toNat_ushiftRight, Nat.shiftRight_eq_div_pow]

/-- An address determines its block. -/
theorem blockAddr_shiftRight {b : Nat} (hb : b < 2 ^ 52) : (blockAddr b >>> 12).toNat = b := by
  rw [toNat_shiftRight_12, toNat_blockAddr hb, Nat.mul_div_cancel_left b (by decide)]

/-- Where the kernel stops for good. -/
inductive Halt
  /-- `kernel_panic`: "Out of memory!", from `allocate_physical_block` and from `list::grow`. -/
  | outOfMemory
  /-- `kernel_panic`: "Out of bounds list access", from `list::get`. -/
  | outOfBounds
  /-- `assert(index)` in `free_physical_block`. -/
  | nullBlock
  /-- `assert(!"Kernel Out of Virtual Memory")` in `kernel_allocate_4k_pages`. -/
  | outOfVirtualMemory
  /-- `kernel_panic`: "Process address space cannot be >512GB", from `map_virtual_memory_4k`. -/
  | addressSpaceTooLarge
  /-- `assert(map->page_dirs[pdpt_index])` in `map_virtual_memory_4k`. -/
  | noPageDir
  /-- The kernel touched a heap page that is not mapped, and `page_fault_handler` panicked. -/
  | pageFault
  /-- `assert(!(size & (memory::PAGE_SIZE_4K - 1)))`. -/
  | sizeNotAligned
  /-- `assert(!(base & (memory::PAGE_SIZE_4K - 1)))`. -/
  | baseNotAligned
  /-- `assert(region && region->base())`. -/
  | noRegion
  /-- `assert(requested_base == _base)` in `process_image_vm_object::map_allocated_blocks`. -/
  | imageMoved
  /-- `assert(block)` in the same function. -/
  | imageWithoutBlock
  /-- `assert(block_index < (_size >> PAGE_SHIFT_4K))` in `physical_vm_object::hit`. -/
  | hitOutsideObject
  /-- `assert(_anonymous)` in the same function. -/
  | hitNotAnonymous
  /-- `assert(phys < PHYS_BLOCK_MAX)` in the same function. -/
  | blockTooHigh
  /-- `assert(_use_count <= 1)` in `physical_vm_object::~physical_vm_object`. -/
  | objectInUse
  /-- `assert(!(thread->registers.rsp & 0xF))` in `create_elf_process`. -/
  | stackNotAligned
  deriving DecidableEq, Repr

/-- A sequence of two calls returns if both do. -/
theorem bind_eq_ok {α β : Type} {x : Except Halt α} {f : α → Except Halt β} {r : β} :
    (x >>= f) = .ok r ↔ ∃ a, x = .ok a ∧ f a = .ok r := by
  cases x with
  | error e =>
    constructor
    · intro h
      cases h
    · rintro ⟨a, h, -⟩
      cases h
  | ok a =>
    constructor
    · exact fun h ↦ ⟨a, rfl, h⟩
    · rintro ⟨a', h, h'⟩
      cases h
      exact h'

end Borrrdex
