import Borrrdex.Lib.ForLoop
import Borrrdex.Memory.PageEntry

/-!
# The kernel heap's page tables

The last gigabyte of the address space is the kernel heap.  `kernel_heap_dir` is its page
directory and `kernel_heap_dir_tables` its 512 page tables, all of them arrays of the kernel
image.  `kernel_allocate_4k_pages` looks for a run of consecutive pages that are not present, in
two passes: the first inside the tables that are in use already, the second over tables that are
not.  Both carry the start of the current run as a pair of a table number and an offset in it, and
the offset may be 512, one past the table's last page.

`PhysOf` is where the linker put the tables, which only matters for the frames that go into
`kernel_heap_dir`.  `invlpg` has no counterpart here: translations are read from the tables.
-/

set_option autoImplicit false

namespace Borrrdex

/-- `kernel_heap_dir` and `kernel_heap_dir_tables`. -/
structure KernelHeap where
  /-- `kernel_heap_dir`. -/
  dir : Nat → U64
  /-- `kernel_heap_dir_tables`. -/
  tables : Nat → Nat → U64

/-- The physical address of each of the tables, `&kernel_heap_dir_tables[i] -
KERNEL_VIRTUAL_BASE`. -/
abbrev PhysOf := Nat → U64

/-- The variables the two passes of `kernel_allocate_4k_pages` share. -/
structure RunCursor where
  /-- `page_dir_offset`: the table the current run starts in. -/
  pageDirOffset : Nat
  /-- `offset`: where in that table it starts. -/
  offset : Nat
  /-- `counter`: how many free pages it has so far. -/
  counter : Nat

namespace KernelHeap

/-- The heap as `initialize_virtual_memory` leaves it. -/
def atInit : KernelHeap := ⟨fun _ ↦ 0, fun _ _ ↦ 0⟩

/-- Store an entry of a table. -/
def setEntry (h : KernelHeap) (i j : Nat) (e : U64) : KernelHeap :=
  { h with tables := Function.update h.tables i (Function.update (h.tables i) j e) }

/-- Bring table `i` into use: point its directory entry at it. -/
def openTable (phys : PhysOf) (h : KernelHeap) (i : Nat) : KernelHeap :=
  { h with
    dir := Function.update h.dir i
      (setPageFrame (h.dir i) (phys i) ||| (tableWriteable ||| tablePresent)) }

/-- The address `kernel_allocate_4k_pages` computes for the start of a run. -/
def runAddress (pageDirOffset offset : Nat) : U64 :=
  (0x8000000000#64 * 511#64 + 511#64 * 0x40000000#64 +
    BitVec.ofNat 64 pageDirOffset * 0x200000#64 + BitVec.ofNat 64 offset * 0x1000#64) |||
  0xFFFF000000000000#64

/-- The loop over one table in the first pass. -/
def firstPassPage (h : KernelHeap) (amount i j : Nat) (c : RunCursor) : RunCursor ⊕ RunCursor :=
  if present (h.tables i j) then .inr ⟨i, j + 1, 0⟩
  else if amount ≤ c.counter + 1 then .inl { c with counter := c.counter + 1 }
  else .inr { c with counter := c.counter + 1 }

/-- The first pass: a table that is in use is searched page by page, any other ends the run. -/
def firstPassTable (h : KernelHeap) (amount i : Nat) (c : RunCursor) : RunCursor ⊕ RunCursor :=
  if present (h.dir i) && !large (h.dir i) then forRange (firstPassPage h amount i) 0 512 c
  else .inr ⟨i + 1, 0, 0⟩

/-- The marking loop of the first pass. -/
def markPages : Nat → Nat → Nat → KernelHeap → KernelHeap
  | 0, _, _, h => h
  | n + 1, pageDirOffset, offset, h =>
    if 512 ≤ offset then
      markPages n (pageDirOffset + 1) 1
        (h.setEntry (pageDirOffset + 1) 0 (tableWriteable ||| tablePresent))
    else
      markPages n pageDirOffset (offset + 1)
        (h.setEntry pageDirOffset offset (tableWriteable ||| tablePresent))

/-- The second pass: a table that is not in use adds its 512 pages to the run, any other ends
it. -/
def secondPassTable (h : KernelHeap) (amount i : Nat) (c : RunCursor) : RunCursor ⊕ RunCursor :=
  if !present (h.dir i) then
    if amount ≤ c.counter + 512 then .inl { c with counter := c.counter + 512 }
    else .inr { c with counter := c.counter + 512 }
  else .inr ⟨i + 1, 0, 0⟩

/-- The marking loop of the second pass, which brings each table it enters into use. -/
def markNewPages (phys : PhysOf) : Nat → Nat → Nat → KernelHeap → KernelHeap
  | 0, _, _, h => h
  | n + 1, pageDirOffset, offset, h =>
    if 512 ≤ offset then
      markNewPages phys n (pageDirOffset + 1) 1
        ((h.openTable phys (pageDirOffset + 1)).setEntry (pageDirOffset + 1) 0
          (tableWriteable ||| tablePresent))
    else
      markNewPages phys n pageDirOffset (offset + 1)
        (h.setEntry pageDirOffset offset (tableWriteable ||| tablePresent))

/-- `kernel_allocate_4k_pages`. -/
def kernelAllocate4kPages (phys : PhysOf) (amount : Nat) (h : KernelHeap) :
    Except Halt (U64 × KernelHeap) :=
  match forRange (firstPassTable h amount) 0 512 ⟨0, 0, 0⟩ with
  | .inl c => .ok (runAddress c.pageDirOffset c.offset,
      markPages c.counter c.pageDirOffset c.offset h)
  | .inr _ =>
    match forRange (secondPassTable h amount) 0 512 ⟨0, 0, 0⟩ with
    | .inl c => .ok (runAddress c.pageDirOffset c.offset,
        markNewPages phys amount c.pageDirOffset c.offset (h.openTable phys c.pageDirOffset))
    | .inr _ => .error .outOfVirtualMemory

/-- `kernel_free_4k_pages`. -/
def kernelFree4kPages : Nat → U64 → KernelHeap → KernelHeap
  | 0, _, h => h
  | amount + 1, virt, h =>
    kernelFree4kPages amount (virt + 0x1000#64) (h.setEntry (pdeIndex virt) (ptIndex virt) 0#64)

/-- `kernel_map_virtual_memory_4k`. -/
def kernelMapVirtualMemory4k (flags : U64) : Nat → U64 → U64 → KernelHeap → KernelHeap
  | 0, _, _, h => h
  | amount + 1, phys, virt, h =>
    kernelMapVirtualMemory4k flags amount (phys + 0x1000#64) (virt + 0x1000#64)
      (h.setEntry (pdeIndex virt) (ptIndex virt) (setPageFrame flags phys))

/-- `virtual_to_physical_addr`.  Both shifts are made in the 32 bits of `get_page_frame`. -/
def virtualToPhysicalAddr (h : KernelHeap) (addr : U64) : U64 :=
  if pml4Index addr < 511 then 0#64
  else if large (h.dir (pdeIndex addr)) then
    (getPageFrame (h.dir (pdeIndex addr)) <<< 12).setWidth 64
  else (getPageFrame (h.tables (pdeIndex addr) (ptIndex addr)) <<< 12).setWidth 64

end KernelHeap
end Borrrdex
