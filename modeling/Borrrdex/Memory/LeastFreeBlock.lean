import Mathlib.Order.Interval.Finset.Nat
import Borrrdex.Lib.LeastPool
import Borrrdex.Memory.PhysicalAllocator

/-!
# The allocator hands out the least free block

`get_first_free_block` does not look at the whole bitmap: it starts at `next_chunk`, and only
looks at the chunks before it once it has found nothing.  That it still returns the *least* free
block rests on an invariant the source does not mention, `HintInv`: no block from 32 on and below
chunk `next_chunk` is free.  Allocating keeps it because the chunks the search passed over were
full, and freeing keeps it by moving `next_chunk` down.

`Reaches` describes the runs: boot, then allocations and frees of what is currently handed out.
`Refines` ties each state of a run to a `Pool` of block numbers, and `reaches_refines` is the
simulation; what the allocator does on any run is then read off the pool.  The last section is
about the blocks the search never looks at.
-/

set_option autoImplicit false

namespace Borrrdex
namespace PhysAllocator

open Bitmap

/-! ## What the search finds -/

theorem searchChunk_of_full {a : PhysAllocator} {i : Nat}
    (h : a.physMemBitmap i = 0xFFFFFFFF#32) : searchChunk i a = (0, a) := by
  rw [searchChunk, if_pos h]

theorem searchChunk_of_not_full {a : PhysAllocator} {i : Nat}
    (h : a.physMemBitmap i ≠ 0xFFFFFFFF#32) :
    ∃ j, firstClear (a.physMemBitmap i) = some j ∧
      searchChunk i a = (i * 32 + j, { a with nextChunk := i }) := by
  obtain ⟨j, hj⟩ := Option.isSome_iff_exists.mp (firstClear_isSome h)
  exact ⟨j, hj, by rw [searchChunk, if_neg h, hj]⟩

/-- A search over consecutive chunks, none of them chunk 0, returns the least free block there is
in them, and moves the hint to its chunk; or it finds every block taken and changes nothing. -/
theorem searchChunks_range' (a : PhysAllocator) : ∀ (n s : Nat), 1 ≤ s →
    (∃ b, s * 32 ≤ b ∧ b < (s + n) * 32 ∧ bit a.physMemBitmap b = false ∧
        (∀ c, s * 32 ≤ c → c < b → bit a.physMemBitmap c = true) ∧
        searchChunks (List.range' s n) a = (b, { a with nextChunk := b / 32 })) ∨
      ((∀ c, s * 32 ≤ c → c < (s + n) * 32 → bit a.physMemBitmap c = true) ∧
        searchChunks (List.range' s n) a = (0, a))
  | 0, s, _ => .inr ⟨fun c h1 h2 ↦ by omega, rfl⟩
  | n + 1, s, hs => by
    rw [List.range'_succ, searchChunks]
    by_cases hfull : a.physMemBitmap s = 0xFFFFFFFF#32
    · rw [searchChunk_of_full hfull, if_neg (by simp)]
      have hset : ∀ c, s * 32 ≤ c → c < (s + 1) * 32 → bit a.physMemBitmap c = true :=
        fun c h1 h2 ↦ bit_of_eq_allOnes hfull h1 h2
      rcases searchChunks_range' a n (s + 1) (by omega) with
        ⟨b, h1, h2, hb, hbefore, heq⟩ | ⟨hall, heq⟩
      · refine .inl ⟨b, by omega, by omega, hb, fun c hc1 hc2 ↦ ?_, heq⟩
        by_cases hc : c < (s + 1) * 32
        · exact hset c hc1 hc
        · exact hbefore c (by omega) hc2
      · refine .inr ⟨fun c hc1 hc2 ↦ ?_, heq⟩
        by_cases hc : c < (s + 1) * 32
        · exact hset c hc1 hc
        · exact hall c (by omega) (by omega)
    · obtain ⟨j, hj, heq⟩ := searchChunk_of_not_full hfull
      obtain ⟨hclear, hbefore⟩ := bit_of_firstClear hj
      have hj32 : j < 32 := (firstClear_eq_some.mp hj).1
      have hdiv : (s * 32 + j) / 32 = s := by omega
      refine .inl ⟨s * 32 + j, by omega, by omega, hclear, hbefore, ?_⟩
      rw [heq, if_pos (by simp only []; omega), hdiv]

/-! ## The hint -/

/-- The number of chunks the search looks at, `max_blocks >> 5` after
`initialize_physical_allocator`. -/
def searchBound : Nat := physBitmapSizeDwords / 32

/-- The blocks the search can return: free, from 32 on, in the chunks it looks at. -/
def freeBlocks (a : PhysAllocator) : Set Nat :=
  {b | 32 ≤ b ∧ b < searchBound * 32 ∧ bit a.physMemBitmap b = false}

/-- **The hint is safe**: no block below it, apart from chunk 0, is free. -/
structure HintInv (a : PhysAllocator) : Prop where
  /-- The bound is the one `initialize_physical_allocator` set. -/
  maxBlocks_eq : a.maxBlocks = physBitmapSizeDwords
  /-- The hint is never chunk 0. -/
  hint_pos : 1 ≤ a.nextChunk
  /-- The hint is inside the search. -/
  hint_le : a.nextChunk ≤ searchBound
  /-- Every block below the hint is taken. -/
  below_hint : ∀ b, 32 ≤ b → b < a.nextChunk * 32 → bit a.physMemBitmap b = true

theorem HintInv.bound_eq {a : PhysAllocator} (h : HintInv a) : a.maxBlocks >>> 5 = searchBound := by
  rw [h.maxBlocks_eq]
  rfl

theorem HintInv.resetZeroHint_eq {a : PhysAllocator} (h : HintInv a) : a.resetZeroHint = a := by
  have hpos := h.hint_pos
  rw [resetZeroHint, if_neg (by omega)]

/-- The first loop finds the least free block, or there is none. -/
theorem HintInv.searchFromHint_spec {a : PhysAllocator} (h : HintInv a) :
    (∃ b, IsLeast a.freeBlocks b ∧ a.searchFromHint = (b, { a with nextChunk := b / 32 })) ∨
      (a.freeBlocks = ∅ ∧ a.searchFromHint = (0, a)) := by
  have hle := h.hint_le
  have hpos := h.hint_pos
  rw [searchFromHint, h.bound_eq]
  rcases searchChunks_range' a (searchBound - a.nextChunk) a.nextChunk h.hint_pos with
    ⟨b, h1, h2, hb, hbefore, heq⟩ | ⟨hall, heq⟩
  · refine .inl ⟨b, ⟨⟨by omega, by omega, hb⟩, ?_⟩, heq⟩
    rintro c ⟨hc1, -, hc⟩
    by_contra hlt
    have hset : bit a.physMemBitmap c = true := by
      by_cases hcn : c < a.nextChunk * 32
      · exact h.below_hint c hc1 hcn
      · exact hbefore c (by omega) (by omega)
    rw [hc] at hset
    exact absurd hset (by simp)
  · refine .inr ⟨Set.eq_empty_iff_forall_notMem.mpr ?_, heq⟩
    rintro c ⟨hc1, hc2, hc⟩
    have hset : bit a.physMemBitmap c = true := by
      by_cases hcn : c < a.nextChunk * 32
      · exact h.below_hint c hc1 hcn
      · exact hall c (by omega) (by omega)
    rw [hc] at hset
    exact absurd hset (by simp)

/-- **The second loop is idle**: what the first one missed, it does not find either. -/
theorem HintInv.searchFromStart_of_empty {a : PhysAllocator} (h : HintInv a)
    (hempty : a.freeBlocks = ∅) : a.searchFromStart = (0, a) := by
  have hle := h.hint_le
  have hpos := h.hint_pos
  rw [searchFromStart, h.bound_eq]
  rcases searchChunks_range' a (searchBound - 1) 1 le_rfl with
    ⟨b, h1, h2, hb, -, -⟩ | ⟨-, heq⟩
  · have hmem : b ∈ a.freeBlocks := ⟨by omega, by omega, hb⟩
    rw [hempty] at hmem
    exact hmem.elim
  · exact heq

/-- `allocate_physical_block` takes the least free block, or there is none. -/
theorem HintInv.allocatePhysicalBlock_spec {a : PhysAllocator} (h : HintInv a) :
    (∃ b, IsLeast a.freeBlocks b ∧ a.allocatePhysicalBlock =
        .ok (blockAddr b,
          { a with
            physMemBitmap := set a.physMemBitmap b
            usedBlocks := a.usedBlocks + 1
            nextChunk := b / 32 })) ∨
      (a.freeBlocks = ∅ ∧ a.allocatePhysicalBlock = .error .outOfMemory) := by
  rcases h.searchFromHint_spec with ⟨b, hb, heq⟩ | ⟨hempty, heq⟩
  · have hb32 : 32 ≤ b := hb.1.1
    have hfound : a.getFirstFreeBlock = (b, { a with nextChunk := b / 32 }) := by
      simp only [getFirstFreeBlock, h.resetZeroHint_eq, heq]
      rw [if_pos (by omega)]
    refine .inl ⟨b, hb, ?_⟩
    simp only [allocatePhysicalBlock, hfound]
    rw [if_neg (by omega)]
    rfl
  · have hfound : a.getFirstFreeBlock = (0, a) := by
      simp only [getFirstFreeBlock, h.resetZeroHint_eq, heq, ne_eq, not_true_eq_false, if_false]
      exact h.searchFromStart_of_empty hempty
    refine .inr ⟨hempty, ?_⟩
    simp only [allocatePhysicalBlock, hfound, if_true]

/-- Taking a block removes it from the free ones. -/
theorem freeBlocks_of_set {a a' : PhysAllocator} {b : Nat}
    (h : a'.physMemBitmap = set a.physMemBitmap b) : a'.freeBlocks = a.freeBlocks \ {b} := by
  ext c
  simp only [freeBlocks, h, bit_set (show 0 < 32 by decide), Bool.or_eq_false_iff,
    decide_eq_false_iff_not, Set.mem_sdiff, Set.mem_ofPred_eq, Set.mem_singleton_iff, and_assoc]

/-- **One allocation**: it takes the least free block and keeps the hint safe. -/
theorem HintInv.allocate {a : PhysAllocator} (h : HintInv a) :
    (∃ b a', IsLeast a.freeBlocks b ∧ a.allocatePhysicalBlock = .ok (blockAddr b, a') ∧
        HintInv a' ∧ a'.physMemBitmap = set a.physMemBitmap b ∧
        a'.usedBlocks = a.usedBlocks + 1) ∨
      (a.freeBlocks = ∅ ∧ a.allocatePhysicalBlock = .error .outOfMemory) := by
  refine h.allocatePhysicalBlock_spec.imp_left fun ⟨b, hb, hcall⟩ ↦ ?_
  obtain ⟨hb32, hbound, -⟩ := hb.1
  refine ⟨b, _, hb, hcall, ⟨h.maxBlocks_eq, ?_, ?_, ?_⟩, rfl, rfl⟩
  · show 1 ≤ b / 32
    omega
  · show b / 32 ≤ searchBound
    omega
  · -- the chunks the search passed over had no free block, and `b` is in the next one
    intro c h1 h2
    have h2' : c < b / 32 * 32 := h2
    have hset : bit a.physMemBitmap c = true := by
      by_contra hc
      have hle := hb.2 (show c ∈ a.freeBlocks from ⟨h1, by omega, by simpa using hc⟩)
      omega
    show bit (set a.physMemBitmap b) c = true
    simp [bit_set, hset]

/-! ## Booting -/

/-- A usable entry of the boot loader's memory map. -/
structure UsableRegion where
  /-- Its first byte. -/
  base : U64
  /-- Its length in bytes. -/
  size : U64

/-- The blocks `mark_memory_region_free` clears for an entry: `size` rounded up to whole blocks,
from the block `base` lies in. -/
def UsableRegion.blocks (r : UsableRegion) : Set Nat :=
  {b | r.base.toNat / 4096 ≤ b ∧ b < r.base.toNat / 4096 + (r.size.toNat + 4095) / 4096}

/-- The entry is inside the memory `phys_mem_bitmap` describes. -/
def UsableRegion.Inside (r : UsableRegion) : Prop :=
  r.base.toNat / 4096 + (r.size.toNat + 4095) / 4096 ≤ physBitmapSizeDwords * 32

instance (r : UsableRegion) : Decidable r.Inside :=
  inferInstanceAs (Decidable (_ ≤ _))

/-- The blocks some entry of the memory map marks free. -/
def marked (regions : List UsableRegion) : Set Nat := {b | ∃ r ∈ regions, b ∈ r.blocks}

/-- The entries of the memory map, marked free one after the other. -/
def markRegionsFree (regions : List UsableRegion) (a : PhysAllocator) : PhysAllocator :=
  regions.foldl (fun a r ↦ a.markMemoryRegionFree r.base r.size) a

/-- The allocator as `hal::init_stivale2` leaves it. -/
def boot (regions : List UsableRegion) : PhysAllocator :=
  (markRegionsFree regions atLoad.initializePhysicalAllocator).resetUsedBlocks

theorem markBlocksFree_spec : ∀ (n : Nat) (align : U32) (a : PhysAllocator),
    align.toNat + n ≤ 2 ^ 32 →
    (markBlocksFree n align a).maxBlocks = a.maxBlocks ∧
      (markBlocksFree n align a).nextChunk = a.nextChunk ∧
      ∀ k, bit (markBlocksFree n align a).physMemBitmap k = false ↔
        bit a.physMemBitmap k = false ∨ (align.toNat ≤ k ∧ k < align.toNat + n)
  | 0, align, a, _ => by
    refine ⟨rfl, rfl, fun k ↦ ?_⟩
    simp [markBlocksFree]
  | n + 1, align, a, h => by
    have hlast : (align + 1).toNat + n ≤ 2 ^ 32 := by
      have hmod := Nat.mod_le (align.toNat + 1) (2 ^ 32)
      rw [BitVec.toNat_add]
      exact (Nat.add_le_add_right hmod n).trans (by omega)
    obtain ⟨hmax, hnext, hbit⟩ := markBlocksFree_spec n (align + 1)
      { a.clearBit align.toNat with usedBlocks := a.usedBlocks - 1 } hlast
    refine ⟨hmax, hnext, fun k ↦ ?_⟩
    rw [markBlocksFree, hbit k]
    simp only [clearBit, bit_clear (w := 32) (by decide), Bool.and_eq_false_iff,
      Bool.not_eq_false', decide_eq_true_eq]
    rw [or_assoc]
    refine or_congr_right ?_
    rcases Nat.lt_or_ge (align.toNat + 1) (2 ^ 32) with hlt | hge
    · have hsucc : (align + 1).toNat = align.toNat + 1 := by
        rw [BitVec.toNat_add]; exact Nat.mod_eq_of_lt hlt
      omega
    · -- the last block of the 32-bit range: the counter wraps, and nothing is left to clear
      have hn : n = 0 := by omega
      subst hn
      omega

/-- Marking an entry that is inside the bitmap frees exactly its blocks. -/
theorem markMemoryRegionFree_spec {r : UsableRegion} (hin : r.Inside) (a : PhysAllocator) :
    (a.markMemoryRegionFree r.base r.size).maxBlocks = a.maxBlocks ∧
      (a.markMemoryRegionFree r.base r.size).nextChunk = a.nextChunk ∧
      ∀ k, bit (a.markMemoryRegionFree r.base r.size).physMemBitmap k = false ↔
        bit a.physMemBitmap k = false ∨ k ∈ r.blocks := by
  have hin' : r.base.toNat / 4096 + (r.size.toNat + 4095) / 4096 ≤ 16783616 := hin
  have hn : (((r.size + 4095) / 4096).setWidth 32).toNat = (r.size.toNat + 4095) / 4096 := by
    rw [BitVec.toNat_setWidth, toNat_div_4096]
    bv_omega
  have hb : ((r.base / 4096).setWidth 32).toNat = r.base.toNat / 4096 := by
    rw [BitVec.toNat_setWidth, toNat_div_4096]
    omega
  have hspec := markBlocksFree_spec ((r.size.toNat + 4095) / 4096)
    ((r.base / 4096).setWidth 32) a (by rw [hb]; omega)
  rw [hb] at hspec
  rw [markMemoryRegionFree, hn]
  exact hspec

theorem markRegionsFree_spec (regions : List UsableRegion) (hin : ∀ r ∈ regions, r.Inside)
    (a : PhysAllocator) :
    (markRegionsFree regions a).maxBlocks = a.maxBlocks ∧
      (markRegionsFree regions a).nextChunk = a.nextChunk ∧
      ∀ k, bit (markRegionsFree regions a).physMemBitmap k = false ↔
        bit a.physMemBitmap k = false ∨ k ∈ marked regions := by
  induction regions generalizing a with
  | nil => simp [markRegionsFree, marked]
  | cons r regions ih =>
    obtain ⟨hmax, hnext, hbit⟩ := markMemoryRegionFree_spec (hin r (by simp)) a
    obtain ⟨hmax', hnext', hbit'⟩ := ih (fun r' hr' ↦ hin r' (by simp [hr']))
      (a.markMemoryRegionFree r.base r.size)
    refine ⟨hmax'.trans hmax, hnext'.trans hnext, fun k ↦ (hbit' k).trans ?_⟩
    rw [hbit k, or_assoc]
    refine or_congr_right ?_
    simp [marked]

/-- After `initialize_physical_allocator` every bit of the bitmap is set. -/
theorem bit_initializePhysicalAllocator (a : PhysAllocator) {k : Nat}
    (hk : k < physBitmapSizeDwords * 32) :
    bit a.initializePhysicalAllocator.physMemBitmap k = true := by
  have hdiv : k / 32 < physBitmapSizeDwords := by omega
  have hfull : a.initializePhysicalAllocator.physMemBitmap (k / 32) = 0xFFFFFFFF#32 := by
    simp only [initializePhysicalAllocator, if_pos hdiv]
  exact bit_of_eq_allOnes hfull (by omega) (by omega)

/-! ## Runs -/

/-- The runs of the allocator: boot on a memory map, then any sequence of allocations and of
frees of a block currently handed out.  The last argument is the set of blocks handed out. -/
inductive Reaches (regions : List UsableRegion) : PhysAllocator → Finset Nat → Prop
  | boot : Reaches regions (boot regions) ∅
  | allocate {a a' : PhysAllocator} {held : Finset Nat} {addr : U64} (h : Reaches regions a held)
      (hcall : a.allocatePhysicalBlock = .ok (addr, a')) :
      Reaches regions a' (insert (addr >>> 12).toNat held)
  | free {a a' : PhysAllocator} {held : Finset Nat} {addr : U64} (h : Reaches regions a held)
      (hheld : (addr >>> 12).toNat ∈ held) (hcall : a.freePhysicalBlock addr = .ok a') :
      Reaches regions a' (held.erase (addr >>> 12).toNat)

/-- The pool of block numbers a memory map gives rise to, with `held` handed out. -/
def pool (regions : List UsableRegion) (held : Finset Nat) : Pool Nat where
  usable := {b | 32 ≤ b ∧ b < searchBound * 32 ∧ b ∈ marked regions}
  held := held

/-- **The simulation relation**: the allocator is in step with the pool. -/
structure Refines (regions : List UsableRegion) (a : PhysAllocator) (held : Finset Nat) : Prop
    extends HintInv a where
  /-- A bit is clear exactly for the blocks that were marked free and are not handed out. -/
  bit_iff : ∀ k, k < physBitmapSizeDwords * 32 →
    (bit a.physMemBitmap k = false ↔ k ∈ marked regions ∧ k ∉ held)
  /-- What is handed out comes from the pool. -/
  held_usable : ∀ b ∈ held, b ∈ (pool regions held).usable
  /-- `used_blocks` counts what is handed out. -/
  usedBlocks_eq : a.usedBlocks = BitVec.ofNat 64 held.card

/-- Blocks handed out lie below 4 GiB. -/
theorem Refines.frame_lt {regions : List UsableRegion} {a : PhysAllocator} {held : Finset Nat}
    (h : Refines regions a held) {b : Nat} (hb : b ∈ held) : b < 2 ^ 20 :=
  (h.held_usable b hb).2.1.trans (by decide)

theorem Refines.freeBlocks_eq {regions : List UsableRegion} {a : PhysAllocator}
    {held : Finset Nat} (h : Refines regions a held) :
    a.freeBlocks = (pool regions held).available := by
  ext b
  have hbound : searchBound * 32 ≤ physBitmapSizeDwords * 32 := by decide
  simp only [freeBlocks, Pool.available, pool, Set.mem_ofPred_eq]
  constructor
  · rintro ⟨h1, h2, hb⟩
    obtain ⟨hm, hh⟩ := (h.bit_iff b (by omega)).mp hb
    exact ⟨⟨h1, h2, hm⟩, hh⟩
  · rintro ⟨⟨h1, h2, hm⟩, hh⟩
    exact ⟨h1, h2, (h.bit_iff b (by omega)).mpr ⟨hm, hh⟩⟩

theorem refines_boot {regions : List UsableRegion} (hin : ∀ r ∈ regions, r.Inside) :
    Refines regions (boot regions) ∅ := by
  obtain ⟨hmax, hnext, hbit⟩ := markRegionsFree_spec regions hin
    atLoad.initializePhysicalAllocator
  have hhint : (boot regions).nextChunk = 1 := hnext
  refine ⟨⟨hmax, by omega, by rw [hhint]; decide, fun b h1 h2 ↦ by omega⟩, fun k hk ↦ ?_,
    by simp, rfl⟩
  have hset := bit_initializePhysicalAllocator atLoad hk
  refine (hbit k).trans ?_
  simp [hset]

/-- An allocation takes the least available element of the pool; it fails only when there is
none. -/
theorem Refines.allocate {regions : List UsableRegion} {a : PhysAllocator} {held : Finset Nat}
    (h : Refines regions a held) :
    (∃ b a', IsLeast (pool regions held).available b ∧
        a.allocatePhysicalBlock = .ok (blockAddr b, a') ∧
        Refines regions a' (insert b held)) ∨
      ((pool regions held).available = ∅ ∧ a.allocatePhysicalBlock = .error .outOfMemory) := by
  rcases h.toHintInv.allocate with ⟨b, a', hb, hcall, hhint, hbitmap, hused⟩ | ⟨hempty, hcall⟩
  · rw [h.freeBlocks_eq] at hb
    refine .inl ⟨b, a', hb, hcall, hhint, ?_, ?_, ?_⟩
    · intro k hk
      rw [hbitmap, bit_set (by decide), Bool.or_eq_false_iff, h.bit_iff k hk,
        decide_eq_false_iff_not, Finset.mem_insert, not_or]
      tauto
    · intro c hc
      rcases Finset.mem_insert.mp hc with rfl | hc
      · exact hb.1.1
      · exact h.held_usable c hc
    · rw [hused, h.usedBlocks_eq, Finset.card_insert_of_notMem (s := held) hb.1.2,
        BitVec.ofNat_add]
      rfl
  · rw [h.freeBlocks_eq] at hempty
    exact .inr ⟨hempty, hcall⟩

/-- What `free_physical_block` does for a block other than block 0. -/
theorem freePhysicalBlock_eq (a : PhysAllocator) {addr : U64} {b : Nat}
    (hb : (addr >>> 12).toNat = b) (hne : b ≠ 0) :
    a.freePhysicalBlock addr = .ok
      { a with
        physMemBitmap := clear a.physMemBitmap b
        usedBlocks := a.usedBlocks - 1
        nextChunk := if b / 32 < a.nextChunk then b / 32 else a.nextChunk } := by
  subst hb
  rw [freePhysicalBlock, if_neg hne]
  rfl

/-- Freeing a block that is handed out puts it back into the pool. -/
theorem Refines.free {regions : List UsableRegion} {a : PhysAllocator} {held : Finset Nat}
    (h : Refines regions a held) {addr : U64} (hheld : (addr >>> 12).toNat ∈ held) :
    ∃ a', a.freePhysicalBlock addr = .ok a' ∧
      Refines regions a' (held.erase (addr >>> 12).toNat) := by
  generalize hb : (addr >>> 12).toNat = b at hheld ⊢
  obtain ⟨hb32, hbound, hmarked⟩ := h.held_usable b hheld
  have hle := h.hint_le
  have hpos := h.hint_pos
  have hne : ¬b = 0 := by omega
  refine ⟨_, freePhysicalBlock_eq a hb hne, ⟨h.maxBlocks_eq, ?_, ?_, ?_⟩, ?_, ?_, ?_⟩
  · show 1 ≤ if b / 32 < a.nextChunk then b / 32 else a.nextChunk
    split <;> omega
  · show (if b / 32 < a.nextChunk then b / 32 else a.nextChunk) ≤ searchBound
    split <;> omega
  · -- below the new hint lies neither `b` nor anything the old hint did not cover
    intro c h1 h2
    have h2' : c < (if b / 32 < a.nextChunk then b / 32 else a.nextChunk) * 32 := h2
    have hlt : c < a.nextChunk * 32 ∧ c ≠ b := by
      split at h2' <;> constructor <;> omega
    show bit (clear a.physMemBitmap b) c = true
    rw [bit_clear (by decide), h.below_hint c h1 hlt.1]
    simpa using hlt.2
  · intro k hk
    show bit (clear a.physMemBitmap b) k = false ↔ _
    rw [bit_clear (by decide), Bool.and_eq_false_iff, h.bit_iff k hk, Bool.not_eq_false',
      decide_eq_true_eq, Finset.mem_erase, not_and]
    constructor
    · rintro (⟨hm, hh⟩ | rfl)
      · exact ⟨hm, fun _ ↦ hh⟩
      · exact ⟨hmarked, fun hne ↦ absurd rfl hne⟩
    · rintro ⟨hm, hh⟩
      by_cases hkb : k = b
      · exact .inr hkb
      · exact .inl ⟨hm, hh hkb⟩
  · exact fun c hc ↦ h.held_usable c (Finset.mem_of_mem_erase hc)
  · show a.usedBlocks - 1 = _
    have hcard : 0 < held.card := Finset.card_pos.mpr ⟨b, hheld⟩
    obtain ⟨n, hn⟩ : ∃ n, held.card = n + 1 := ⟨held.card - 1, by omega⟩
    rw [h.usedBlocks_eq, Finset.card_erase_of_mem hheld, hn, BitVec.ofNat_add]
    exact BitVec.add_sub_cancel _ _

/-- **The allocator refines the pool**, along every run. -/
theorem reaches_refines {regions : List UsableRegion} (hin : ∀ r ∈ regions, r.Inside)
    {a : PhysAllocator} {held : Finset Nat} (h : Reaches regions a held) :
    Refines regions a held := by
  induction h with
  | boot => exact refines_boot hin
  | @allocate a a' held addr _ hcall ih =>
    rcases ih.allocate with ⟨b, a'', hb, hcall', href⟩ | ⟨-, herr⟩
    · rw [hcall'] at hcall
      cases hcall
      have hlt : b < 2 ^ 52 := hb.1.1.2.1.trans (by decide)
      rwa [blockAddr_shiftRight hlt]
    · rw [herr] at hcall
      cases hcall
  | free _ hheld hcall ih =>
    obtain ⟨a'', hcall', href⟩ := ih.free hheld
    rw [hcall'] at hcall
    cases hcall
    exact href

/-- The least block that is there is the one that is handed out. -/
theorem Reaches.allocate_least {regions : List UsableRegion} (hin : ∀ r ∈ regions, r.Inside)
    {a : PhysAllocator} {held : Finset Nat} (h : Reaches regions a held) {b : Nat}
    (hleast : IsLeast (pool regions held).available b) :
    ∃ a', a.allocatePhysicalBlock = .ok (blockAddr b, a') ∧ Reaches regions a' (insert b held) := by
  rcases (reaches_refines hin h).allocate with ⟨c, a', hc, hcall, -⟩ | ⟨hempty, -⟩
  · obtain rfl := hleast.unique hc
    have hlt : b < 2 ^ 52 := hc.1.1.2.1.trans (by decide)
    refine ⟨a', hcall, ?_⟩
    rw [← blockAddr_shiftRight hlt]
    exact .allocate h hcall
  · exact absurd hleast.1 (by simp [hempty])

theorem Refines.card_lt {regions : List UsableRegion} {a : PhysAllocator} {held : Finset Nat}
    (h : Refines regions a held) : held.card < 2 ^ 64 := by
  have hsub : held ⊆ Finset.range (searchBound * 32) := fun b hb ↦
    Finset.mem_range.mpr (h.held_usable b hb).2.1
  have hcard := Finset.card_le_card hsub
  rw [Finset.card_range] at hcard
  exact hcard.trans_lt (by decide)

/-- **Least free block, along every run.**  Whatever has been allocated and freed since boot, the
next allocation returns the least block the search covers that was marked free and is not handed
out, and panics only when there is none; freeing what is handed out succeeds; the second search
loop finds nothing the first one missed; and `used_blocks` counts the blocks handed out. -/
theorem allocator_run_spec {regions : List UsableRegion} (hin : ∀ r ∈ regions, r.Inside)
    {a : PhysAllocator} {held : Finset Nat} (h : Reaches regions a held) :
    (match a.allocatePhysicalBlock with
      | .ok (addr, _) => ∃ b, addr.toNat = 4096 * b ∧
          IsLeast {b | 32 ≤ b ∧ b < (a.maxBlocks >>> 5) * 32 ∧ b ∈ marked regions ∧ b ∉ held} b
      | .error e => e = .outOfMemory ∧
          ∀ b, 32 ≤ b → b < (a.maxBlocks >>> 5) * 32 → b ∈ marked regions → b ∈ held) ∧
      (∀ addr : U64, (addr >>> 12).toNat ∈ held → ∃ a', a.freePhysicalBlock addr = .ok a') ∧
      (a.resetZeroHint.searchFromHint.1 = 0 →
        a.resetZeroHint.searchFromHint.2.searchFromStart.1 = 0) ∧
      a.usedBlocks.toNat = held.card := by
  have href := reaches_refines hin h
  refine ⟨?_, fun addr haddr ↦ ?_, fun hnone ↦ ?_, ?_⟩
  · have havail : {b | 32 ≤ b ∧ b < (a.maxBlocks >>> 5) * 32 ∧ b ∈ marked regions ∧ b ∉ held} =
        (pool regions held).available := by
      ext b
      rw [href.bound_eq]
      simp only [Pool.available, pool, Set.mem_ofPred_eq, and_assoc]
    rcases href.allocate with ⟨b, a', hb, hcall, -⟩ | ⟨hempty, hcall⟩
    · have hlt : b < 2 ^ 52 := hb.1.1.2.1.trans (by decide)
      simp only [hcall, havail]
      exact ⟨b, toNat_blockAddr hlt, hb⟩
    · simp only [hcall, true_and]
      intro b h1 h2 hm
      by_contra hh
      have hmem : b ∈ (pool regions held).available := havail ▸ ⟨h1, h2, hm, hh⟩
      rw [hempty] at hmem
      exact hmem
  · obtain ⟨a', hcall, -⟩ := href.free haddr
    exact ⟨a', hcall⟩
  · rw [href.resetZeroHint_eq] at hnone ⊢
    rcases href.searchFromHint_spec with ⟨b, hb, heq⟩ | ⟨hempty, heq⟩
    · rw [heq] at hnone
      have hb32 : 32 ≤ b := hb.1.1
      omega
    · rw [heq, href.searchFromStart_of_empty hempty]
  · rw [href.usedBlocks_eq, BitVec.toNat_ofNat, Nat.mod_eq_of_lt href.card_lt]

/-- A machine with two usable blocks, 32 and 33. -/
def twoBlocks : List UsableRegion := [⟨0x20000, 0x2000⟩]

theorem mem_marked_twoBlocks {b : Nat} : b ∈ marked twoBlocks ↔ b = 32 ∨ b = 33 := by
  simp only [marked, twoBlocks, UsableRegion.blocks, List.mem_singleton, exists_eq_left,
    Set.mem_ofPred_eq]
  show 131072 / 4096 ≤ b ∧ b < 131072 / 4096 + (8192 + 4095) / 4096 ↔ _
  omega

/-- Both blocks are allocated and the lower one is freed: it is the next to be allocated. -/
theorem allocator_run_spec_two_blocks :
    (∀ r ∈ twoBlocks, r.Inside) ∧ ∃ a a', Reaches twoBlocks a {33} ∧ a.usedBlocks.toNat = 1 ∧
      a.allocatePhysicalBlock = .ok (0x20000#64, a') := by
  have hin : ∀ r ∈ twoBlocks, r.Inside := by decide
  have hmem : ∀ held b, b ∈ (pool twoBlocks held).available ↔ (b = 32 ∨ b = 33) ∧ b ∉ held := by
    intro held b
    have hbound : 33 < searchBound * 32 := by decide
    show (32 ≤ b ∧ b < searchBound * 32 ∧ b ∈ marked twoBlocks) ∧ b ∉ held ↔ _
    rw [mem_marked_twoBlocks]
    refine and_congr_left fun _ ↦ ⟨fun h ↦ h.2.2, fun h ↦ ?_⟩
    omega
  obtain ⟨a₁, -, h₁⟩ := Reaches.boot.allocate_least (b := 32) hin
    ⟨(hmem _ _).mpr (by decide), fun c hc ↦ by have := (hmem _ _).mp hc; omega⟩
  obtain ⟨a₂, -, h₂⟩ := h₁.allocate_least (b := 33) hin
    ⟨(hmem _ _).mpr (by decide), fun c hc ↦ by
      obtain ⟨rfl | rfl, hnot⟩ := (hmem _ _).mp hc
      · exact absurd (Finset.mem_insert_self 32 ∅) hnot
      · exact le_rfl⟩
  have hheld : ((0x20000#64) >>> 12).toNat ∈ (insert 33 (insert 32 ∅) : Finset Nat) := by decide
  obtain ⟨a, hfree⟩ := (allocator_run_spec hin h₂).2.1 _ hheld
  have h : Reaches twoBlocks a {33} := Reaches.free h₂ hheld hfree
  obtain ⟨hnext, -, -, hused⟩ := allocator_run_spec hin h
  refine ⟨hin, a, ?_⟩
  cases hcall : a.allocatePhysicalBlock with
  | error e =>
    rw [hcall] at hnext
    exact absurd (hnext.2 32 le_rfl (by rw [(reaches_refines hin h).bound_eq]; decide)
      (mem_marked_twoBlocks.mpr (.inl rfl))) (by decide)
  | ok r =>
    rw [hcall] at hnext
    obtain ⟨b, hb, ⟨hle, hlt, hmarked, hnot⟩, -⟩ := hnext
    have hb32 : b = 32 := (mem_marked_twoBlocks.mp hmarked).resolve_right fun h33 ↦
      hnot (Finset.mem_singleton.mpr h33)
    refine ⟨r.2, h, hused, congrArg Except.ok (Prod.ext (BitVec.eq_of_toNat_eq ?_) rfl)⟩
    rw [hb, hb32]
    rfl

/-! ## The blocks the search never looks at

`initialize_physical_allocator` sets `max_blocks` to the number of dwords of the bitmap, and
`get_first_free_block` takes `max_blocks >> 5` for the number of chunks.  So the search covers
one chunk in thirty-two: the blocks below `searchBound * 32`, which is physical memory below
0x800C0000. -/

theorem marked_lt {regions : List UsableRegion} (hin : ∀ r ∈ regions, r.Inside) {b : Nat}
    (hb : b ∈ marked regions) : b < physBitmapSizeDwords * 32 := by
  obtain ⟨r, hr, -, hlt⟩ := hb
  exact hlt.trans_le (hin r hr)

theorem pool_available_finite (regions : List UsableRegion) (held : Finset Nat) :
    (pool regions held).available.Finite :=
  (Set.finite_Iio (searchBound * 32)).subset fun _ hb ↦ hb.1.2.1

/-- Taking from the pool is something the allocator can do. -/
theorem Reaches.takes {regions : List UsableRegion} (hin : ∀ r ∈ regions, r.Inside)
    {p q : Pool Nat} (ht : Pool.Takes p q) :
    ∀ {a : PhysAllocator} {held : Finset Nat}, Reaches regions a held → p = pool regions held →
      ∃ a', Reaches regions a' q.held ∧ q = pool regions q.held := by
  induction ht with
  | refl p =>
    intro a held h hp
    subst hp
    exact ⟨a, h, rfl⟩
  | @step p q b hb _ ih =>
    intro a held h hp
    subst hp
    rcases (reaches_refines hin h).allocate with ⟨b', a', hb', hcall, href⟩ | ⟨hempty, -⟩
    · obtain rfl := hb.unique hb'
      have hlt : b < 2 ^ 52 := hb.1.1.2.1.trans (by decide)
      have hnext := Reaches.allocate h hcall
      rw [blockAddr_shiftRight hlt] at hnext
      exact ih hnext rfl
    · exact absurd hb.1 (by simp [hempty])

/-- What the bitmap says about the blocks the search never looks at does not change. -/
theorem Refines.bit_of_out_of_reach {regions : List UsableRegion} {a : PhysAllocator}
    {held : Finset Nat} (h : Refines regions a held) {b : Nat} (hb : b ∈ marked regions)
    (hlt : b < physBitmapSizeDwords * 32) (hout : searchBound * 32 ≤ b) :
    bit a.physMemBitmap b = false := by
  refine (h.bit_iff b hlt).mpr ⟨hb, fun hheld ↦ ?_⟩
  have hin := (h.held_usable b hheld).2.1
  omega

/-- **Completeness, exactly.**  "Out of memory" means that every block of chunk 1 on is taken, in
every run, if and only if no usable entry of the memory map reaches beyond the blocks the search
looks at; and that is also exactly when every usable block from 32 on is handed out in some
run. -/
theorem allocator_complete_iff {regions : List UsableRegion} (hin : ∀ r ∈ regions, r.Inside) :
    ((∀ a held e, Reaches regions a held → a.allocatePhysicalBlock = .error e →
        ∀ b, 32 ≤ b → b < physBitmapSizeDwords * 32 → bit a.physMemBitmap b = true) ↔
      ∀ b ∈ marked regions, b < (physBitmapSizeDwords >>> 5) * 32) ∧
    ((∀ b ∈ marked regions, 32 ≤ b → ∃ a held, Reaches regions a held ∧ b ∈ held) ↔
      ∀ b ∈ marked regions, b < (physBitmapSizeDwords >>> 5) * 32) := by
  have hbound : physBitmapSizeDwords >>> 5 = searchBound := rfl
  have hbig : 32 ≤ searchBound * 32 := by decide
  rw [hbound]
  refine ⟨⟨fun hcomplete b hb ↦ ?_, fun hreach a held e h hcall b h1 h2 ↦ ?_⟩,
    fun hall b hb ↦ ?_, fun hreach b hb h1 ↦ ?_⟩
  · -- empty the pool: the next allocation fails, and `b` is still marked free
    by_contra hout
    obtain ⟨q, htakes, hempty⟩ := Pool.exists_takes_empty (pool_available_finite regions ∅)
    obtain ⟨a, h, hq⟩ := Reaches.takes hin htakes .boot rfl
    have href := reaches_refines hin h
    rw [hq] at hempty
    rcases href.allocate with ⟨c, -, hc, -⟩ | ⟨-, hcall⟩
    · exact absurd hc.1 (by simp [hempty])
    · have hlt := marked_lt hin hb
      have hset := hcomplete a _ _ h hcall b (by omega) hlt
      rw [href.bit_of_out_of_reach hb hlt (by omega)] at hset
      exact absurd hset (by simp)
  · by_contra hclear
    have href := reaches_refines hin h
    obtain ⟨hm, hh⟩ := (href.bit_iff b h2).mp (by simpa using hclear)
    rcases href.allocate with ⟨c, a', -, hok, -⟩ | ⟨hempty, -⟩
    · rw [hok] at hcall
      cases hcall
    · have hmem : b ∈ (pool regions held).available := ⟨⟨h1, hreach b hm, hm⟩, hh⟩
      rw [hempty] at hmem
      exact hmem
  · by_contra hout
    obtain ⟨a, held, h, hheld⟩ := hall b hb (by omega)
    have hin' := ((reaches_refines hin h).held_usable b hheld).2.1
    omega
  · have hmem : b ∈ (pool regions ∅).available := ⟨⟨h1, hreach b hb, hb⟩, by simp [pool]⟩
    obtain ⟨q, htakes, hleast⟩ :=
      Pool.exists_takes_least (pool_available_finite regions ∅) hmem
    obtain ⟨a, h, hq⟩ := Reaches.takes hin htakes .boot rfl
    rw [hq] at hleast
    obtain ⟨a', -, h'⟩ := h.allocate_least hin hleast
    exact ⟨a', _, h', Finset.mem_insert_self b _⟩

theorem allocator_complete_iff_one_block :
    (∀ r ∈ [(⟨0x20000, 0x1000⟩ : UsableRegion)], r.Inside) ∧
      ((∀ b ∈ marked [⟨0x20000, 0x1000⟩], 32 ≤ b →
          ∃ a held, Reaches [⟨0x20000, 0x1000⟩] a held ∧ b ∈ held) ↔
        ∀ b ∈ marked [⟨0x20000, 0x1000⟩], b < (physBitmapSizeDwords >>> 5) * 32) :=
  ⟨by decide, (allocator_complete_iff (by decide)).2⟩

/-- A machine whose one usable block is at 4 GiB is out of memory right after boot, with that
block's bit clear. -/
theorem allocator_incomplete_at_4GiB :
    (∀ r ∈ [(⟨0x100000000, 0x1000⟩ : UsableRegion)], r.Inside) ∧
      Reaches [⟨0x100000000, 0x1000⟩] (boot [⟨0x100000000, 0x1000⟩]) ∅ ∧
      (boot [⟨0x100000000, 0x1000⟩]).allocatePhysicalBlock = .error .outOfMemory ∧
      32 ≤ 0x100000 ∧ 0x100000 < physBitmapSizeDwords * 32 ∧
      bit (boot [⟨0x100000000, 0x1000⟩]).physMemBitmap 0x100000 = false := by
  have hin : ∀ r ∈ [(⟨0x100000000, 0x1000⟩ : UsableRegion)], r.Inside := by decide
  have href := refines_boot hin
  have hmem : ∀ b, b ∈ marked [(⟨0x100000000, 0x1000⟩ : UsableRegion)] ↔ b = 0x100000 := by
    intro b
    simp only [marked, UsableRegion.blocks, List.mem_singleton, exists_eq_left, Set.mem_ofPred_eq]
    show 4294967296 / 4096 ≤ b ∧ b < 4294967296 / 4096 + (4096 + 4095) / 4096 ↔ _
    omega
  refine ⟨hin, .boot, ?_, by decide, by decide,
    href.bit_of_out_of_reach ((hmem _).mpr rfl) (by decide) (by decide)⟩
  rcases href.allocate with ⟨b, -, hb, -⟩ | ⟨-, hcall⟩
  · obtain ⟨⟨-, hlt, hm⟩, -⟩ := hb.1
    rw [(hmem b).mp hm] at hlt
    exact absurd hlt (by decide)
  · exact hcall

end PhysAllocator
end Borrrdex
