import Borrrdex.Basic
import Borrrdex.Lib.Bitmap

/-!
# The physical block allocator

`Kernel/src/arch/x86_64/physical_allocator.cpp`: one bit for every 4 KiB block of physical
memory, set when the block is taken, in an array of 32-bit words the source calls chunks.
`next_chunk` is where the search for a free block starts, so that it does not look through the
same full chunks again and again.

The array `phys_mem_bitmap` is the function `physMemBitmap`, of which the source has the first
`physBitmapSizeDwords` values.  The lock is not modelled: what is here is what one thread at a
time does.
-/

set_option autoImplicit false

namespace Borrrdex

/-- `PHYS_BITMAP_SIZE_DWORDS`. -/
def physBitmapSizeDwords : Nat := 524488

/-- The variables of `physical_allocator.cpp`. -/
structure PhysAllocator where
  /-- `phys_mem_bitmap`. -/
  physMemBitmap : Nat → U32
  /-- `used_blocks`. -/
  usedBlocks : U64
  /-- `max_blocks`. -/
  maxBlocks : Nat
  /-- `next_chunk`. -/
  nextChunk : Nat

namespace PhysAllocator

/-- The variables as the kernel image loads them. -/
def atLoad : PhysAllocator where
  physMemBitmap := fun _ ↦ 0
  usedBlocks := BitVec.ofNat 64 (physBitmapSizeDwords * 32)
  maxBlocks := physBitmapSizeDwords * 32
  nextChunk := 1

/-- `clear_bit`. -/
def clearBit (n : Nat) (a : PhysAllocator) : PhysAllocator :=
  { a with physMemBitmap := Bitmap.clear a.physMemBitmap n }

/-- `set_bit`. -/
def setBit (n : Nat) (a : PhysAllocator) : PhysAllocator :=
  { a with physMemBitmap := Bitmap.set a.physMemBitmap n }

/-- `initialize_physical_allocator`.  `max_blocks` gets the number of *dwords*. -/
def initializePhysicalAllocator (a : PhysAllocator) : PhysAllocator :=
  { a with
    physMemBitmap := fun i ↦
      if i < physBitmapSizeDwords then 0xFFFFFFFF#32 else a.physMemBitmap i
    maxBlocks := physBitmapSizeDwords
    usedBlocks := BitVec.ofNat 64 physBitmapSizeDwords }

/-- The lambda `body` of `get_first_free_block`: the number of the first free block of chunk `i`,
which also becomes the next chunk to look at, or 0. -/
def searchChunk (i : Nat) (a : PhysAllocator) : Nat × PhysAllocator :=
  if a.physMemBitmap i = 0xFFFFFFFF#32 then (0, a)
  else
    match Bitmap.firstClear (a.physMemBitmap i) with
    | some j => (i * 32 + j, { a with nextChunk := i })
    | none => (0, a)

/-- A search loop of `get_first_free_block`, over the chunks it is given. -/
def searchChunks : List Nat → PhysAllocator → Nat × PhysAllocator
  | [], a => (0, a)
  | i :: is, a =>
    if (searchChunk i a).1 ≠ 0 then searchChunk i a else searchChunks is (searchChunk i a).2

/-- `next_chunk` as the search starts: `get_first_free_block` makes a zero a one. -/
def resetZeroHint (a : PhysAllocator) : PhysAllocator :=
  if a.nextChunk = 0 then { a with nextChunk := 1 } else a

/-- The first search loop of `get_first_free_block`, from `next_chunk` to the end. -/
def searchFromHint (a : PhysAllocator) : Nat × PhysAllocator :=
  searchChunks (List.range' a.nextChunk ((a.maxBlocks >>> 5) - a.nextChunk)) a

/-- The second search loop of `get_first_free_block`, from the beginning. -/
def searchFromStart (a : PhysAllocator) : Nat × PhysAllocator :=
  searchChunks (List.range' 1 ((a.maxBlocks >>> 5) - 1)) a

/-- `get_first_free_block`. -/
def getFirstFreeBlock (a : PhysAllocator) : Nat × PhysAllocator :=
  let found := searchFromHint a.resetZeroHint
  if found.1 ≠ 0 then found else searchFromStart found.2

/-- `reset_used_blocks`. -/
def resetUsedBlocks (a : PhysAllocator) : PhysAllocator := { a with usedBlocks := 0 }

/-- The loop of `mark_memory_region_free`; `align` is a `uint32_t`. -/
def markBlocksFree : Nat → U32 → PhysAllocator → PhysAllocator
  | 0, _, a => a
  | n + 1, align, a =>
    markBlocksFree n (align + 1)
      { a.clearBit align.toNat with usedBlocks := a.usedBlocks - 1 }

/-- `mark_memory_region_free`. -/
def markMemoryRegionFree (base size : U64) (a : PhysAllocator) : PhysAllocator :=
  markBlocksFree (((size + 4095) / 4096).setWidth 32).toNat ((base / 4096).setWidth 32) a

/-- `allocate_physical_block`. -/
def allocatePhysicalBlock (a : PhysAllocator) : Except Halt (U64 × PhysAllocator) :=
  let found := a.getFirstFreeBlock
  if found.1 = 0 then .error .outOfMemory
  else
    .ok (blockAddr found.1,
      { found.2.setBit found.1 with usedBlocks := found.2.usedBlocks + 1 })

/-- `free_physical_block`. -/
def freePhysicalBlock (addr : U64) (a : PhysAllocator) : Except Halt PhysAllocator :=
  let index := (addr >>> 12).toNat
  if index = 0 then .error .nullBlock
  else
    .ok { a.clearBit index with
      usedBlocks := a.usedBlocks - 1
      nextChunk := if index / 32 < a.nextChunk then index / 32 else a.nextChunk }

end PhysAllocator
end Borrrdex
