import Borrrdex.Lib.PageWalk
import Borrrdex.Memory.Liballoc

/-!
# Page maps of user address spaces

A `page_map_t` keeps two pictures of the same tree of tables.  The hardware's is in the physical
blocks: a PML4, a PDPT, 512 page directories and the page tables made so far, framed by the
entries of the level above.  The kernel's own is in arrays of virtual addresses, through which it
reads and writes the tables; in `PageMap` those arrays are functions, and a null pointer is 0.

The kernel reaches a table only through the heap page it is mapped at, so `load`, `store` and
`fillPage` translate their address through the heap's tables and stop with a page fault when there
is no translation.  A pointer here is the address of a page, and the second argument is the number
of a 64-bit word in it.

`create_page_map`, `create_page_table` and `destroy_page_map` also return the addresses they passed
through `allocate_physical_block` and `free_physical_block` themselves, in order, which the source
does not.
-/

set_option autoImplicit false

namespace Borrrdex

/-- How the hardware reads an entry.  The PML4, three levels above the pages, has no large pages. -/
def entryFormat : PageWalk.Format U64 where
  present := present
  large := fun levels e ↦ decide (levels < 3) && large e
  frame := frameOf

namespace KernelHeap

/-- The frame the hardware finds for an address of the kernel heap. -/
def translate (h : KernelHeap) (virt : U64) : Option Nat :=
  if pml4Index virt = 511 ∧ pdptIndex virt = 511 ∧ present (h.dir (pdeIndex virt)) = true ∧
      large (h.dir (pdeIndex virt)) = false ∧
      present (h.tables (pdeIndex virt) (ptIndex virt)) = true then
    some (frameOf (h.tables (pdeIndex virt) (ptIndex virt)))
  else none

end KernelHeap

namespace KernelMem

open KernelHeap PhysAllocator

/-! ## Memory accesses of the kernel -/

/-- Read word `i` of the page at `virt`. -/
def load (virt : U64) (i : Nat) (k : KernelMem) : Except Halt U64 :=
  match k.heap.translate virt with
  | none => .error .pageFault
  | some f => .ok (k.ram f i)

/-- Write word `i` of the page at `virt`. -/
def store (virt : U64) (i : Nat) (word : U64) (k : KernelMem) : Except Halt KernelMem :=
  match k.heap.translate virt with
  | none => .error .pageFault
  | some f => .ok { k with ram := Function.update k.ram f (Function.update (k.ram f) i word) }

/-- Write all words of the page at `virt`. -/
def fillPage (virt : U64) (words : Nat → U64) (k : KernelMem) : Except Halt KernelMem :=
  match k.heap.translate virt with
  | none => .error .pageFault
  | some f => .ok { k with ram := Function.update k.ram f words }

/-- What every table starts with: a heap page and a physical block, mapped at it. -/
def mapFreshPage (phys : PhysOf) (k : KernelMem) : Except Halt (U64 × U64 × KernelMem) := do
  let (virt, heap) ← kernelAllocate4kPages phys 1 k.heap
  let (frame, blocks) ← k.blocks.allocatePhysicalBlock
  return (virt, frame,
    { k with
      blocks := blocks
      heap := kernelMapVirtualMemory4k kernelFlags 1 frame virt heap })

/-- `allocate_page_table`: its physical and its virtual address. -/
def allocatePageTable (phys : PhysOf) (k : KernelMem) : Except Halt (U64 × U64 × KernelMem) := do
  let (virt, frame, k) ← mapFreshPage phys k
  let k ← k.fillPage virt fun _ ↦ 0#64
  return (frame, virt, k)

/-- What a call of `malloc` does to the two allocators: `liballoc_alloc`, for each of the page
counts it asks for.  What it writes to the pages it gets is not in the model. -/
def mallocPages (phys : PhysOf) : List Nat → KernelMem → Except Halt KernelMem
  | [], k => .ok k
  | n :: ns, k => do
    let (_, _, k) ← liballocAlloc phys n k
    mallocPages phys ns k

/-- What a call of `free` does to the two allocators: `liballoc_free`, for each of the chunks it
gives up. -/
def freeChunks : List (U64 × Nat) → KernelMem → Except Halt KernelMem
  | [], k => .ok k
  | x :: xs, k => do
    let (_, k) ← liballocFree x.1 x.2 k
    freeChunks xs k

end KernelMem

/-- The page counts each call of `malloc` asks `liballoc_alloc` for; it may have memory left and
ask for none, and never asks for zero pages. -/
structure Malloc where
  /-- The requests of each call. -/
  requests : Nat → List Nat
  /-- No request is for zero pages. -/
  requests_pos : ∀ c, ∀ n ∈ requests c, 1 ≤ n

/-- `page_map_t`. -/
structure PageMap where
  /-- `pdpt`. -/
  pdpt : U64
  /-- `page_dirs`. -/
  pageDirs : Nat → U64
  /-- `page_dirs_phys`. -/
  pageDirsPhys : Nat → U64
  /-- `page_tables`. -/
  pageTables : Nat → Nat → U64
  /-- `pml4`. -/
  pml4 : U64
  /-- `pdpt_phys`. -/
  pdptPhys : U64
  /-- `pml4_phys`. -/
  pml4Phys : U64

namespace PageMap

open KernelMem KernelHeap PhysAllocator

/-- The flags of an entry that frames a table of a user address space. -/
def userFlags : U64 := tablePresent ||| tableWriteable ||| pageUser

/-- Store a pointer to a page table. -/
def setPageTable (m : PageMap) (i j : Nat) (virt : U64) : PageMap :=
  { m with pageTables := Function.update m.pageTables i (Function.update (m.pageTables i) j virt) }

/-- Store the pointers to a page directory and to its shadow array, which is cleared. -/
def setPageDir (m : PageMap) (i : Nat) (dir dirPhys : U64) : PageMap :=
  { m with
    pageDirs := Function.update m.pageDirs i dir
    pageDirsPhys := Function.update m.pageDirsPhys i dirPhys
    pageTables := Function.update m.pageTables i fun _ ↦ 0#64 }

/-! ## Mapping pages -/

/-- `create_page_table`. -/
def createPageTable (phys : PhysOf) (pdptIndex pageDirIndex : Nat) (m : PageMap) (k : KernelMem) :
    Except Halt (PageMap × List U64 × KernelMem) := do
  let (frame, virt, k) ← allocatePageTable phys k
  let e ← k.load (m.pageDirs pdptIndex) pageDirIndex
  let k ← k.store (m.pageDirs pdptIndex) pageDirIndex (setPageFrame e frame ||| userFlags)
  return (m.setPageTable pdptIndex pageDirIndex virt, [frame], k)

/-- The table of a page is there, or `map_virtual_memory_4k` creates it. -/
def ensurePageTable (phys : PhysOf) (i j : Nat) (m : PageMap) (k : KernelMem) :
    Except Halt (PageMap × List U64 × KernelMem) := do
  let e ← k.load (m.pageDirs i) j
  if present e then return (m, [], k) else createPageTable phys i j m k

/-- The body of the loop of `map_virtual_memory_4k`. -/
def mapPage (phys : PhysOf) (flags frame virt : U64) (m : PageMap) (k : KernelMem) :
    Except Halt (PageMap × List U64 × KernelMem) :=
  if 511 < pdptIndex virt ∨ pml4Index virt ≠ 0 then .error .addressSpaceTooLarge
  else if m.pageDirs (pdptIndex virt) = 0#64 then .error .noPageDir
  else do
    let (m, taken, k) ← ensurePageTable phys (pdptIndex virt) (pdeIndex virt) m k
    let k ← k.store (m.pageTables (pdptIndex virt) (pdeIndex virt)) (ptIndex virt)
      (setPageFrame flags frame)
    return (m, taken, k)

/-- `map_virtual_memory_4k`. -/
def mapVirtualMemory4k (phys : PhysOf) (flags : U64) : Nat → U64 → U64 → PageMap → KernelMem →
    Except Halt (PageMap × List U64 × KernelMem)
  | 0, _, _, m, k => .ok (m, [], k)
  | amount + 1, frame, virt, m, k => do
    let (m, taken, k) ← mapPage phys flags frame virt m k
    let (m, taken', k) ←
      mapVirtualMemory4k phys flags amount (frame + 0x1000#64) (virt + 0x1000#64) m k
    return (m, taken ++ taken', k)

/-! ## Creating a page map -/

/-- The body of the loop of `create_page_map`: directory `i`, its shadow array, and the PDPT entry
that frames it. -/
def createDir (phys : PhysOf) (mal : Malloc) (i : Nat) (m : PageMap) (k : KernelMem) :
    Except Halt (PageMap × List U64 × KernelMem) := do
  let (dir, dirPhys, k) ← mapFreshPage phys k
  let k ← mallocPages phys (mal.requests (i + 1)) k
  -- the entry is read and changed as the block holds it: the PDPT was not cleared
  let e ← k.load m.pdpt i
  let k ← k.store m.pdpt i (setPageFrame e dirPhys ||| userFlags)
  let k ← k.fillPage dir fun _ ↦ 0#64
  return (m.setPageDir i dir dirPhys, [dirPhys], k)

/-- The loop of `create_page_map`: `n` directories are left, and directory `i` is next. -/
def createDirs (phys : PhysOf) (mal : Malloc) : Nat → Nat → PageMap → KernelMem →
    Except Halt (PageMap × List U64 × KernelMem)
  | 0, _, m, k => .ok (m, [], k)
  | n + 1, i, m, k => do
    let (m, taken, k) ← createDir phys mal i m k
    let (m, taken', k) ← createDirs phys mal n (i + 1) m k
    return (m, taken ++ taken', k)

/-- What `create_page_map` does before its loop.  Three of the blocks back the arrays `page_dirs`,
`page_dirs_phys` and `page_tables`. -/
def createRoot (phys : PhysOf) (mal : Malloc) (kernelPml4 : Nat → U64) (k : KernelMem) :
    Except Halt (PageMap × List U64 × KernelMem) := do
  let k ← mallocPages phys (mal.requests 0) k
  let (pdpt, pdptPhys, k) ← mapFreshPage phys k
  let (_, pageDirsBlock, k) ← mapFreshPage phys k
  let (_, pageDirsPhysBlock, k) ← mapFreshPage phys k
  let (_, pageTablesBlock, k) ← mapFreshPage phys k
  let (pml4, pml4Phys, k) ← mapFreshPage phys k
  let k ← k.fillPage pml4 kernelPml4
  return (⟨pdpt, fun _ ↦ 0, fun _ ↦ 0, fun _ _ ↦ 0, pml4, pdptPhys, pml4Phys⟩,
    [pdptPhys, pageDirsBlock, pageDirsPhysBlock, pageTablesBlock, pml4Phys], k)

/-- `create_page_map`. -/
def createPageMap (phys : PhysOf) (mal : Malloc) (kernelPml4 : Nat → U64) (k : KernelMem) :
    Except Halt (PageMap × List U64 × KernelMem) := do
  let (m, taken, k) ← createRoot phys mal kernelPml4 k
  let (m, taken', k) ← createDirs phys mal 512 0 m k
  let k ← k.store m.pml4 0 (m.pdptPhys ||| tablePresent ||| tableWriteable ||| pageUser)
  return (m, taken ++ taken', k)

/-! ## Destroying a page map -/

/-- The loop of `destroy_page_map` over the entries of directory `i`: `n` are left, and entry `j`
is next.  What it passes to `free_physical_block` is the frame *number* of the table. -/
def destroyTables (m : PageMap) (i : Nat) : Nat → Nat → KernelMem →
    Except Halt (List U64 × KernelMem)
  | 0, _, k => .ok ([], k)
  | n + 1, j, k => do
    let e ← k.load (m.pageDirs i) j
    if present e then
      let frame := (getPageFrame e).setWidth 64
      if frame.toNat < 4096 then destroyTables m i n (j + 1) k
      else
        let blocks ← k.blocks.freePhysicalBlock frame
        let k ← { k with
            blocks := blocks
            heap := kernelFree4kPages 1 (m.pageTables i j) k.heap }.store (m.pageDirs i) j 0#64
        let (given, k) ← destroyTables m i n (j + 1) k
        return (frame :: given, k)
    else
      let k ← k.store (m.pageDirs i) j 0#64
      destroyTables m i n (j + 1) k

/-- The body of the outer loop of `destroy_page_map`. -/
def destroyDir (chunks : Nat → List (U64 × Nat)) (m : PageMap) (i : Nat) (k : KernelMem) :
    Except Halt (List U64 × KernelMem) :=
  if m.pageDirs i = 0#64 then .ok ([], k)
  else if (m.pageDirsPhys i).toNat < 4096 then .ok ([], k)
  else do
    let (given, k) ← destroyTables m i 512 0 k
    let k ← freeChunks (chunks i) k
    let k ← k.store m.pdpt i 0#64
    let k : KernelMem := { k with heap := kernelFree4kPages 1 (m.pageDirs i) k.heap }
    let blocks ← k.blocks.freePhysicalBlock (m.pageDirsPhys i)
    return (given ++ [m.pageDirsPhys i], { k with blocks := blocks })

/-- The outer loop of `destroy_page_map`: `n` directories are left, and directory `i` is next. -/
def destroyDirs (chunks : Nat → List (U64 × Nat)) (m : PageMap) : Nat → Nat → KernelMem →
    Except Halt (List U64 × KernelMem)
  | 0, _, k => .ok ([], k)
  | n + 1, i, k => do
    let (given, k) ← destroyDir chunks m i k
    let (given', k) ← destroyDirs chunks m n (i + 1) k
    return (given ++ given', k)

/-- `destroy_page_map`; `chunks i` are the chunks `free(page_tables[i])` gives up. -/
def destroyPageMap (chunks : Nat → List (U64 × Nat)) (m : PageMap) (k : KernelMem) :
    Except Halt (List U64 × KernelMem) := do
  let (given, k) ← destroyDirs chunks m 512 0 k
  let blocks ← k.blocks.freePhysicalBlock m.pdptPhys
  return (given ++ [m.pdptPhys], { k with blocks := blocks })

end PageMap
end Borrrdex
