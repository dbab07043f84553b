import Borrrdex.Mm.Teardown

/-!
# Cloning an object

`physical_vm_object::clone` makes a new object of the same size and gives it a block for each page
of the source that has one, with a copy of what is there.  The constructor of an object that is not
anonymous has given every page a block by then, which is overwritten: it is never freed.

Both loops back some pages of an object with new blocks (`Backs`).  `clones_iff` says that the clone
is right, and its destructor gives back just what was taken for it, if the source is anonymous or
has no pages and the clone's `_use_count` passes the destructor's assertion, and only then.  No
constructor sets that count; `clone` adds one to what the memory held.

The memory of the object itself and of its array comes from `malloc`, which is left out.  `clone`
asserts that the object is not shared.
-/

set_option autoImplicit false

namespace Borrrdex

open KernelMem KernelHeap PhysAllocator

/-- `memcpy(dest, src, PAGE_SIZE_4K)`. -/
def KernelMem.copyPage (dest src : U64) (k : KernelMem) : Except Halt KernelMem :=
  match k.heap.translate src with
  | none => .error .pageFault
  | some f => k.fillPage dest (k.ram f)

namespace VmObject

/-- `physical_vm_object(size, anonymous, false, false)`, in memory that held `garbage`. -/
def newPhysical (phys : PhysOf) (garbage : VmObject) (size : U64) (isAnonymous : Bool)
    (k : KernelMem) : Except Halt (VmObject × KernelMem) :=
  if size &&& 0xFFF#64 ≠ 0#64 then .error .sizeNotAligned
  else if isAnonymous then .ok (anonymous size garbage, k)
  else do
    let (mapping, heap) ← kernelAllocate4kPages phys 1 k.heap
    let (blocks, k) ← imageBlocks mapping (pageCount4K size).toNat 0 garbage.physicalBlocks
      { k with heap := heap }
    return (⟨size, garbage.useCount, false, false, blocks, .physical⟩,
      { k with heap := kernelFree4kPages 1 mapping k.heap })

/-- The loop of `clone`: `n` pages are left, and page `i` is next. -/
def copyBlocks (obj : VmObject) (virtBuffer virtDestBuffer : U64) : ℕ → ℕ → (ℕ → U32) → KernelMem →
    Except Halt ((ℕ → U32) × KernelMem)
  | 0, _, blocks, k => .ok (blocks, k)
  | n + 1, i, blocks, k =>
    if obj.physicalBlocks i ≠ 0#32 then do
      let (newBlock, a) ← k.blocks.allocatePhysicalBlock
      let heap := kernelMapVirtualMemory4k kernelFlags 1 (obj.blockOf i) virtBuffer k.heap
      let heap := kernelMapVirtualMemory4k kernelFlags 1 newBlock virtDestBuffer heap
      let k ← { k with blocks := a, heap := heap }.copyPage virtDestBuffer virtBuffer
      copyBlocks obj virtBuffer virtDestBuffer n (i + 1)
        (Function.update blocks i ((newBlock >>> 12).setWidth 32)) k
    else copyBlocks obj virtBuffer virtDestBuffer n (i + 1) blocks k

/-- `physical_vm_object::clone`. -/
def clone (obj : VmObject) (phys : PhysOf) (garbage : VmObject) (k : KernelMem) :
    Except Halt (VmObject × KernelMem) := do
  let (newVmo, k) ← newPhysical phys garbage obj.size obj.isAnonymous k
  let (virtBuffer, heap) ← kernelAllocate4kPages phys 2 k.heap
  let (blocks, k) ← obj.copyBlocks virtBuffer (virtBuffer + 0x1000#64) (obj.size >>> 12).toNat 0
    newVmo.physicalBlocks { k with heap := heap }
  return ({ newVmo with physicalBlocks := blocks, useCount := newVmo.useCount + 1 },
    { k with heap := kernelFree4kPages 2 virtBuffer k.heap })

/-- The pages of an object. -/
def pages (obj : VmObject) : ℕ := (obj.size >>> 12).toNat

/-- **What a clone should be.**  The last part is about the destructor. -/
structure Clones (obj obj' : VmObject) (k k' : KernelMem) : Prop where
  size_eq : obj'.size = obj.size
  backed_iff : ∀ i < obj.pages, obj'.physicalBlocks i ≠ 0#32 ↔ obj.physicalBlocks i ≠ 0#32
  contents : ∀ i < obj.pages, obj.physicalBlocks i ≠ 0#32 →
    k'.ram (obj'.physicalBlocks i).toNat = k.ram (obj.physicalBlocks i).toNat
  apart : ∀ i < obj.pages, ∀ j < obj.pages, obj'.physicalBlocks i ≠ 0#32 →
    obj.physicalBlocks j ≠ 0#32 → obj'.physicalBlocks i ≠ obj.physicalBlocks j
  source : ∀ i < obj.pages, obj.physicalBlocks i ≠ 0#32 →
    k'.ram (obj.physicalBlocks i).toNat = k.ram (obj.physicalBlocks i).toNat
  gives_back : ∃ k'', obj'.destruct k' = .ok k'' ∧ k''.blocks.freeBlocks = k.blocks.freeBlocks

/-- An object put over this memory and cloned into has a `_use_count` that its destructor accepts.
-/
def Releasable (garbage : VmObject) : Prop := (garbage.useCount + 1).toInt ≤ 1

instance (garbage : VmObject) : Decidable garbage.Releasable :=
  inferInstanceAs (Decidable (_ ≤ _))

end VmObject

/-! ## Pages of the heap -/

namespace KernelHeap

/-- A page of the heap whose table is in use. -/
structure Slot (h : KernelHeap) (virt : U64) : Prop where
  pml4 : pml4Index virt = 511
  pdpt : pdptIndex virt = 511
  in_use : present (h.dir (pdeIndex virt)) = true

variable {h h' : KernelHeap} {virt other : U64}

theorem Slot.of_dir (hs : Slot h virt) (hdir : h'.dir = h.dir) : Slot h' virt :=
  ⟨hs.pml4, hs.pdpt, hdir ▸ hs.in_use⟩

/-- What is mapped there is found there. -/
theorem Slot.translate_map (hs : Slot h virt) (hinv : HeapInv h) (frame : U64) :
    (kernelMapVirtualMemory4k kernelFlags 1 frame virt h).translate virt =
      some (frameOf frame) := by
  rw [translate_eq_some, entry_map_one, if_pos rfl, present_setPageFrame, frameOf_setPageFrame]
  exact ⟨hs.pml4, hs.pdpt, hs.in_use, hinv.not_large _, by decide, rfl⟩

/-- Mapping another page changes nothing there. -/
theorem translate_map_other {f : ℕ} (hv : h.translate virt = some f)
    (hne : heapIndex virt ≠ heapIndex other) (flags frame : U64) :
    (kernelMapVirtualMemory4k flags 1 frame other h).translate virt = some f :=
  translate_mono hv (fun _ _ ↦ rfl) fun _ ↦ by rw [entry_map_one, if_neg hne]

theorem Allocated.slot {n start p : ℕ} {addr : U64} (ha : Allocated n h addr h' start)
    (hlo : start ≤ p) (hhi : p < start + n) : Slot h' (heapPage p) := by
  have hin := ha.inside
  refine ⟨pml4Index_heapPage (by omega), pdptIndex_heapPage (by omega), ?_⟩
  rw [pdeIndex_heapPage (by omega)]
  exact ha.in_use p hlo hhi

theorem HeapInv.free (hinv : HeapInv h) (n : ℕ) (virt : U64) :
    HeapInv (kernelFree4kPages n virt h) := by
  obtain ⟨hdir, hclear, hrest⟩ := kernelFree4kPages_spec n virt h
  refine ⟨fun p hp ↦ ?_, fun d ↦ hdir ▸ hinv.not_large d⟩
  by_cases hin : ∃ j < n, p = heapIndex (pageAt virt j)
  · obtain ⟨j, hj, rfl⟩ := hin
    rw [hclear j hj]
    decide
  · rw [hrest p fun j hj heq ↦ hin ⟨j, hj, heq⟩]
    exact hinv.unused_empty p (hdir ▸ hp)

end KernelHeap

/-! ## Pages that get blocks -/

/-- **Some pages have been given new blocks**, with contents that are known, and the others have
been left alone. -/
structure Backs (pages : Set ℕ) (words : ℕ → ℕ → U64) (blocks blocks' : ℕ → U32)
    (k k' : KernelMem) :
    Prop extends KernelInv k' where
  others : ∀ i ∉ pages, blocks' i = blocks i
  free : ∀ i ∈ pages, (blocks' i).toNat ∈ k.blocks.freeBlocks
  inj : ∀ i ∈ pages, ∀ j ∈ pages, (blocks' i).toNat = (blocks' j).toNat → i = j
  freeBlocks_eq : k'.blocks.freeBlocks = k.blocks.freeBlocks \ (fun i ↦ (blocks' i).toNat) '' pages
  ram_eq : ∀ f ∉ k.blocks.freeBlocks, k'.ram f = k.ram f
  contents : ∀ i ∈ pages, k'.ram (blocks' i).toNat = words i

variable {pages : Set ℕ} {words : ℕ → ℕ → U64} {blocks blocks' : ℕ → U32} {k k₁ k' : KernelMem}

theorem Backs.nil (hk : KernelInv k) : Backs ∅ words blocks blocks k k where
  toKernelInv := hk
  others _ _ := rfl
  free _ hi := hi.elim
  inj _ hi := hi.elim
  freeBlocks_eq := by rw [Set.image_empty, Set.sdiff_empty]
  ram_eq _ _ := rfl
  contents _ hi := hi.elim

/-- What happens to the heap does not matter. -/
theorem Backs.of_heap {heap heap' : KernelHeap}
    (h : Backs pages words blocks blocks' { k with heap := heap } k') (hinv : HeapInv heap') :
    Backs pages words blocks blocks' k { k' with heap := heap' } :=
  ⟨⟨h.hint, hinv⟩, h.others, h.free, h.inj, h.freeBlocks_eq, h.ram_eq, h.contents⟩

/-- **One page, and then the rest.** -/
theorem Backs.cons {i b : ℕ} (hi : i ∉ pages) (hb : b ∈ k.blocks.freeBlocks)
    (hfree : k₁.blocks.freeBlocks = k.blocks.freeBlocks \ {b})
    (hram : k₁.ram = Function.update k.ram b (words i))
    (h : Backs pages words (Function.update blocks i (BitVec.ofNat 32 b)) blocks' k₁ k') :
    Backs (insert i pages) words blocks blocks' k k' := by
  have hlt := freeBlocks_lt hb
  have hself : (blocks' i).toNat = b := by
    rw [h.others i hi, Function.update_self, BitVec.toNat_ofNat, Nat.mod_eq_of_lt (by omega)]
  have hrest : ∀ j ∈ pages, (blocks' j).toNat ∈ k.blocks.freeBlocks ∧ (blocks' j).toNat ≠ b := by
    intro j hj
    have hmem := h.free j hj
    rw [hfree] at hmem
    exact hmem
  have hused : b ∉ k₁.blocks.freeBlocks := by
    rw [hfree]
    exact fun hmem ↦ hmem.2 rfl
  refine ⟨h.toKernelInv, fun j hj ↦ ?_, fun j hj ↦ ?_, fun j hj l hl heq ↦ ?_, ?_, fun f hf ↦ ?_,
    fun j hj ↦ ?_⟩
  · rw [Set.mem_insert_iff, not_or] at hj
    rw [h.others j hj.2, Function.update_of_ne hj.1]
  · rcases Set.mem_insert_iff.mp hj with rfl | hj
    · rw [hself]
      exact hb
    · exact (hrest j hj).1
  · rcases Set.mem_insert_iff.mp hj with hji | hj'
    · rcases Set.mem_insert_iff.mp hl with hli | hl'
      · rw [hji, hli]
      · rw [hji, hself] at heq
        exact absurd heq.symm (hrest l hl').2
    · rcases Set.mem_insert_iff.mp hl with hli | hl'
      · rw [hli, hself] at heq
        exact absurd heq (hrest j hj').2
      · exact h.inj j hj' l hl' heq
  · rw [h.freeBlocks_eq, hfree, Set.image_insert_eq, hself, Set.sdiff_sdiff, Set.singleton_union]
  · have hf' : f ∉ k₁.blocks.freeBlocks := by
      rw [hfree]
      exact fun hmem ↦ hf hmem.1
    rw [h.ram_eq f hf', hram, Function.update_of_ne]
    rintro rfl
    exact hf hb
  · rcases Set.mem_insert_iff.mp hj with rfl | hj
    · rw [hself, h.ram_eq b hused, hram, Function.update_self]
    · exact h.contents j hj

namespace VmObject

theorem frameOf_blockOf (obj : VmObject) (i : ℕ) :
    frameOf (obj.blockOf i) = (obj.physicalBlocks i).toNat := by
  rw [blockOf_eq, frameOf_blockAddr (by have := (obj.physicalBlocks i).isLt; omega)]

theorem setWidth_blockAddr {b : ℕ} (hb : b < 2 ^ 20) :
    ((blockAddr b >>> 12).setWidth 32 : U32) = BitVec.ofNat 32 b := by
  refine BitVec.eq_of_toNat_eq ?_
  rw [toNat_blockAddr_block hb, BitVec.toNat_ofNat, Nat.mod_eq_of_lt (by omega)]

/-- **The loop of the constructor** backs each page, unless there are not enough blocks. -/
theorem imageBlocks_backs (n i : ℕ) (blocks : ℕ → U32) {mapping : U64} (hk : KernelInv k)
    (hslot : Slot k.heap mapping) :
    (∃ e, imageBlocks mapping n i blocks k = .error e ∧ e.Exhausted) ∨
      ∃ blocks' k', imageBlocks mapping n i blocks k = .ok (blocks', k') ∧
        Backs (Set.Ico i (i + n)) (fun _ _ ↦ 0#64) blocks blocks' k k' := by
  induction n generalizing i blocks k with
  | zero =>
    rw [Nat.add_zero, Set.Ico_self]
    exact .inr ⟨blocks, k, rfl, .nil hk⟩
  | succ n ih =>
    rw [imageBlocks]
    rcases hk.hint.allocate with ⟨b, a, hb, hcall, hhint, hbitmap, -⟩ | ⟨-, hcall⟩
    · have hlt := freeBlocks_lt hb.1
      have htranslate := hslot.translate_map hk.heapInv (blockAddr b)
      rw [frameOf_blockAddr (by omega)] at htranslate
      simp only [hcall, Except.bind, bind]
      rw [fillPage_eq (k := { k with
        blocks := a
        heap := kernelMapVirtualMemory4k kernelFlags 1 (blockAddr b) mapping k.heap }) htranslate,
        setWidth_blockAddr hlt]
      have hk₁ : KernelInv ⟨a, kernelMapVirtualMemory4k kernelFlags 1 (blockAddr b) mapping k.heap,
          Function.update k.ram b fun _ ↦ 0#64⟩ := ⟨hhint, hk.heapInv.map_one hslot.in_use⟩
      have hico : Set.Ico i (i + (n + 1)) = insert i (Set.Ico (i + 1) (i + 1 + n)) := by
        ext j
        simp only [Set.mem_Ico, Set.mem_insert_iff]
        omega
      rcases ih (i + 1) (Function.update blocks i (BitVec.ofNat 32 b)) hk₁
        (hslot.of_dir rfl) with ⟨e, he, hexhausted⟩ | ⟨blocks', k', hrest, hbacks⟩
      · exact .inl ⟨e, he, hexhausted⟩
      · refine .inr ⟨blocks', k', hrest, ?_⟩
        rw [hico]
        exact hbacks.cons (fun hmem ↦ absurd hmem.1 (by omega)) hb.1 (freeBlocks_of_set hbitmap) rfl
    · rw [hcall]
      exact .inl ⟨.outOfMemory, rfl, .inl rfl⟩

variable {obj obj' : VmObject}

/-- The pages from `i` on that have a block. -/
def backedFrom (obj : VmObject) (i n : ℕ) : Set ℕ :=
  {j | (i ≤ j ∧ j < i + n) ∧ obj.physicalBlocks j ≠ 0#32}

theorem backedFrom_zero (obj : VmObject) (i : ℕ) : obj.backedFrom i 0 = ∅ := by
  ext j
  simp only [backedFrom, Set.mem_ofPred_eq, Set.mem_empty_iff_false, iff_false]
  omega

theorem backedFrom_succ_of_backed {i : ℕ} (hi : obj.physicalBlocks i ≠ 0#32) (n : ℕ) :
    obj.backedFrom i (n + 1) = insert i (obj.backedFrom (i + 1) n) := by
  ext j
  simp only [backedFrom, Set.mem_ofPred_eq, Set.mem_insert_iff]
  constructor
  · rintro ⟨hin, hne⟩
    rcases hin.1.eq_or_lt with rfl | hlt
    · exact .inl rfl
    · exact .inr ⟨⟨hlt, by omega⟩, hne⟩
  · rintro (rfl | ⟨hin, hne⟩)
    · exact ⟨⟨le_rfl, by omega⟩, hi⟩
    · exact ⟨⟨by omega, by omega⟩, hne⟩

theorem backedFrom_succ_of_not {i : ℕ} (hi : obj.physicalBlocks i = 0#32) (n : ℕ) :
    obj.backedFrom i (n + 1) = obj.backedFrom (i + 1) n := by
  ext j
  simp only [backedFrom, Set.mem_ofPred_eq]
  refine and_congr_left fun hne ↦ ⟨fun hin ↦ ⟨?_, by omega⟩, fun hin ↦ by omega⟩
  rcases hin.1.eq_or_lt with rfl | hlt
  · exact absurd hi hne
  · exact hlt

/-- **The loop of `clone`** backs the pages that the source has blocks for, with what is in these,
unless there are not enough blocks. -/
theorem copyBlocks_backs (n i : ℕ) (blocks : ℕ → U32) {virt dest : U64} (hk : KernelInv k)
    (hvirt : Slot k.heap virt)
    (hdest : Slot k.heap dest) (hne : heapIndex virt ≠ heapIndex dest)
    (howned : ∀ j ∈ obj.backedFrom i n, (obj.physicalBlocks j).toNat ∉ k.blocks.freeBlocks)
    (hwords : ∀ j ∈ obj.backedFrom i n, k.ram (obj.physicalBlocks j).toNat = words j) :
    (∃ e, obj.copyBlocks virt dest n i blocks k = .error e ∧ e.Exhausted) ∨
      ∃ blocks' k', obj.copyBlocks virt dest n i blocks k = .ok (blocks', k') ∧
        Backs (obj.backedFrom i n) words blocks blocks' k k' := by
  induction n generalizing i blocks k with
  | zero =>
    rw [backedFrom_zero]
    exact .inr ⟨blocks, k, rfl, .nil hk⟩
  | succ n ih =>
    rw [copyBlocks]
    split
    · next hi =>
      rw [backedFrom_succ_of_backed hi] at howned hwords ⊢
      rcases hk.hint.allocate with ⟨b, a, hb, hcall, hhint, hbitmap, -⟩ | ⟨-, hcall⟩
      · have hlt := freeBlocks_lt hb.1
        have hdest₁ : Slot (kernelMapVirtualMemory4k kernelFlags 1
          (obj.blockOf i) virt k.heap) dest :=
          hdest.of_dir rfl
        have hinv₁ : HeapInv (kernelMapVirtualMemory4k kernelFlags 1 (obj.blockOf i) virt k.heap) :=
          hk.heapInv.map_one hvirt.in_use
        have hto := hdest₁.translate_map hinv₁ (blockAddr b)
        have hfrom := translate_map_other (hvirt.translate_map hk.heapInv (obj.blockOf i)) hne
          kernelFlags (blockAddr b)
        rw [frameOf_blockAddr (by omega)] at hto
        rw [frameOf_blockOf] at hfrom
        simp only [hcall, Except.bind, bind]
        rw [copyPage, hfrom]
        dsimp only
        rw [fillPage_eq (k := { k with
          blocks := a
          heap := kernelMapVirtualMemory4k kernelFlags 1 (blockAddr b) dest
            (kernelMapVirtualMemory4k kernelFlags 1 (obj.blockOf i) virt k.heap) }) hto,
          setWidth_blockAddr hlt, hwords i (Set.mem_insert i _)]
        have hfree := freeBlocks_of_set hbitmap
        have hk₁ : KernelInv ⟨a, kernelMapVirtualMemory4k kernelFlags 1 (blockAddr b) dest
            (kernelMapVirtualMemory4k kernelFlags 1 (obj.blockOf i) virt k.heap),
            Function.update k.ram b (words i)⟩ := ⟨hhint, hinv₁.map_one hdest₁.in_use⟩
        have howned₁ : ∀ j ∈ obj.backedFrom (i + 1) n,
            (obj.physicalBlocks j).toNat ∉ a.freeBlocks := fun j hj hmem ↦ by
          rw [hfree] at hmem
          exact howned j (Set.mem_insert_of_mem i hj) hmem.1
        have hwords₁ : ∀ j ∈ obj.backedFrom (i + 1) n,
            Function.update k.ram b (words i) (obj.physicalBlocks j).toNat =
              words j := fun j hj ↦ by
          rw [Function.update_of_ne, hwords j (Set.mem_insert_of_mem i hj)]
          intro heq
          exact howned j (Set.mem_insert_of_mem i hj) (heq ▸ hb.1)
        rcases ih (i + 1) (Function.update blocks i (BitVec.ofNat 32 b)) hk₁
          (hvirt.of_dir rfl) (hdest.of_dir rfl) howned₁ hwords₁ with
          ⟨e, he, hexhausted⟩ | ⟨blocks', k', hrest, hbacks⟩
        · exact .inl ⟨e, he, hexhausted⟩
        · exact .inr ⟨blocks', k', hrest,
            hbacks.cons (fun hmem ↦ absurd hmem.1.1 (by omega)) hb.1 hfree rfl⟩
      · rw [hcall]
        exact .inl ⟨.outOfMemory, rfl, .inl rfl⟩
    · next hi =>
      rw [backedFrom_succ_of_not (not_not.mp hi)] at howned hwords ⊢
      exact ih (i + 1) blocks hk hvirt hdest howned hwords

/-! ## The destructor -/

theorem freeBlocks_of_clear {a a' : PhysAllocator} {b : ℕ} (hlo : 32 ≤ b)
    (hhi : b < searchBound * 32) (h : a'.physMemBitmap = Bitmap.clear a.physMemBitmap b) :
    a'.freeBlocks = insert b a.freeBlocks := by
  ext c
  simp only [PhysAllocator.freeBlocks, h, Bitmap.bit_clear (show 0 < 32 by decide),
    Set.mem_insert_iff,
    Set.mem_ofPred_eq, Bool.and_eq_false_iff, Bool.not_eq_false', decide_eq_true_eq]
  constructor
  · rintro ⟨h1, h2, h3 | h3⟩
    · exact .inr ⟨h1, h2, h3⟩
    · exact .inl h3
  · rintro (rfl | ⟨h1, h2, h3⟩)
    · exact ⟨hlo, hhi, .inr rfl⟩
    · exact ⟨h1, h2, .inl h3⟩

/-- **What the destructor gives back**: the blocks of the pages that have one. -/
theorem freeBlocks_ok {n i : ℕ} (h : ∀ j ∈ obj.backedFrom i n,
      32 ≤ (obj.physicalBlocks j).toNat ∧ (obj.physicalBlocks j).toNat < searchBound * 32)
    (a : PhysAllocator) : ∃ a', obj.freeBlocks n i a = .ok a' ∧
      a'.freeBlocks = a.freeBlocks ∪ (fun j ↦
        (obj.physicalBlocks j).toNat) '' obj.backedFrom i n := by
  induction n generalizing i a with
  | zero =>
    rw [backedFrom_zero, Set.image_empty, Set.union_empty]
    exact ⟨a, rfl, rfl⟩
  | succ n ih =>
    rw [VmObject.freeBlocks]
    split
    · next hi =>
      rw [backedFrom_succ_of_backed hi] at h ⊢
      obtain ⟨hlo, hhi⟩ := h i (Set.mem_insert i _)
      have hindex : (obj.blockOf i >>> 12).toNat = (obj.physicalBlocks i).toNat := by
        rw [blockOf_eq, blockAddr_shiftRight (by have := (obj.physicalBlocks i).isLt; omega)]
      have hcall := freePhysicalBlock_eq a hindex (by omega)
      obtain ⟨a', hrest, hfree⟩ := ih (i := i + 1) (fun j hj ↦ h j (Set.mem_insert_of_mem i hj)) _
      refine ⟨a', ?_, ?_⟩
      · rw [hcall]
        exact hrest
      · rw [hfree, freeBlocks_of_clear hlo hhi rfl, Set.image_insert_eq, Set.union_insert,
          Set.insert_union]
    · next hi =>
      rw [backedFrom_succ_of_not (not_not.mp hi)] at h ⊢
      exact ih h a

theorem destruct_eq_ok (hkind : obj.kind = .physical) {k k' : KernelMem} :
    obj.destruct k = .ok k' ↔ obj.useCount.toInt ≤ 1 ∧
      ∃ a, obj.freeBlocks obj.pages 0 k.blocks = .ok a ∧ k' = { k with blocks := a } := by
  rw [destruct, hkind, pages]
  simp only [BitVec.slt, decide_eq_true_eq, show (1#32).toInt = 1 from rfl]
  split
  · next hlt => exact iff_of_false (fun h ↦ by cases h) fun h ↦ absurd h.1 (not_le.mpr hlt)
  · next hle =>
    simp only [not_lt.mp hle, true_and]
    cases obj.freeBlocks (obj.size >>> 12).toNat 0 k.blocks with
    | error e => exact iff_of_false (fun h ↦ by cases h) fun ⟨a, h, _⟩ ↦ by cases h
    | ok a =>
      constructor
      · intro h
        cases h
        exact ⟨a, rfl, rfl⟩
      · rintro ⟨a', ⟨⟩, rfl⟩
        rfl

/-! ## The clone -/

theorem toNat_pageCount4K {size : U64} (haligned : size.toNat % 4096 = 0)
    (hcount : size.toNat / 4096 < 2 ^ 32) : (pageCount4K size).toNat = size.toNat / 4096 := by
  rw [pageCount4K, BitVec.toNat_setWidth, toNat_shiftRight_12, BitVec.toNat_add, BitVec.toNat_ofNat]
  omega

/-- **The constructor of an object that is not anonymous.** -/
theorem newPhysical_image (phys : PhysOf) (garbage : VmObject) {size : U64} (hk : KernelInv k)
    (haligned : size.toNat % 4096 = 0) (hcount : size.toNat / 4096 < 2 ^ 32) :
    (∃ e, newPhysical phys garbage size false k = .error e ∧ e.Exhausted) ∨
      ∃ blocks' k', newPhysical phys garbage size false k =
          .ok (⟨size, garbage.useCount, false, false, blocks', .physical⟩, k') ∧
        Backs (Set.Ico 0 (size.toNat / 4096))
          (fun _ _ ↦ 0#64) garbage.physicalBlocks blocks' k k' := by
  rw [newPhysical, if_neg (not_not.mpr (Regions.and_fff_eq_zero.mpr haligned)),
    if_neg Bool.false_ne_true,
    toNat_pageCount4K haligned hcount]
  cases hheap : kernelAllocate4kPages phys 1 k.heap with
  | error e => exact .inl ⟨e, rfl, .inr (kernelAllocate4kPages_error hheap)⟩
  | ok r =>
    obtain ⟨mapping, heap⟩ := r
    obtain ⟨start, ha⟩ := kernelAllocate4kPages_spec hk.heapInv le_rfl hheap
    have hslot : Slot heap mapping := ha.addr_eq ▸ ha.slot le_rfl (by omega)
    have hk₁ : KernelInv { k with heap := heap } := ⟨hk.hint, ha.heapInv hk.heapInv⟩
    simp only [Except.bind, bind, pure, Except.pure]
    rcases imageBlocks_backs (size.toNat / 4096) 0 garbage.physicalBlocks hk₁
      hslot with ⟨e, he, hexhausted⟩ | ⟨blocks', k', hloop, hbacks⟩
    · rw [he]
      exact .inl ⟨e, rfl, hexhausted⟩
    · rw [hloop]
      rw [Nat.zero_add] at hbacks
      exact .inr ⟨blocks', _, rfl, hbacks.of_heap (hbacks.heapInv.free 1 mapping)⟩

/-- **The loop of `clone`**, once the new object is there. -/
theorem clone_of_new {phys : PhysOf} {garbage newVmo : VmObject}
    (hnew : newPhysical phys garbage obj.size obj.isAnonymous k = .ok (newVmo, k₁))
    (hk₁ : KernelInv k₁) (howned : ∀ j ∈ obj.backedFrom 0 obj.pages,
      (obj.physicalBlocks j).toNat ∉ k₁.blocks.freeBlocks) :
    (∃ e, obj.clone phys garbage k = .error e ∧ e.Exhausted) ∨
      ∃ blocks' k', obj.clone phys garbage k = .ok ({ newVmo with
          physicalBlocks := blocks', useCount := newVmo.useCount + 1 }, k') ∧
        Backs (obj.backedFrom 0 obj.pages) (fun j ↦ k₁.ram (obj.physicalBlocks j).toNat)
          newVmo.physicalBlocks blocks' k₁ k' := by
  rw [clone, hnew]
  simp only [Except.bind, bind]
  cases hheap : kernelAllocate4kPages phys 2 k₁.heap with
  | error e => exact .inl ⟨e, rfl, .inr (kernelAllocate4kPages_error hheap)⟩
  | ok r =>
    obtain ⟨virt, heap⟩ := r
    obtain ⟨start, ha⟩ := kernelAllocate4kPages_spec hk₁.heapInv (by omega) hheap
    have hin := ha.inside
    have hdest : virt + 0x1000#64 = heapPage (start + 1) := by
      rw [ha.addr_eq, ← pageAt_heapPage, pageAt_succ, pageAt_zero]
    have hvirt : Slot heap virt := ha.addr_eq ▸ ha.slot le_rfl (by omega)
    have hslot : Slot heap (virt + 0x1000#64) := hdest ▸ ha.slot (by omega) (by omega)
    have hne : heapIndex virt ≠ heapIndex (virt + 0x1000#64) := by
      rw [hdest, ha.addr_eq, heapIndex_heapPage (by omega), heapIndex_heapPage (by omega)]
      omega
    have hk₂ : KernelInv { k₁ with heap := heap } := ⟨hk₁.hint, ha.heapInv hk₁.heapInv⟩
    dsimp only
    rcases copyBlocks_backs obj.pages 0 newVmo.physicalBlocks hk₂ hvirt hslot hne howned fun _ _ ↦
      rfl with ⟨e, he, hexhausted⟩ | ⟨blocks', k', hloop, hbacks⟩
    · rw [pages] at he
      rw [he]
      exact .inl ⟨e, rfl, hexhausted⟩
    · rw [pages] at hloop
      rw [hloop]
      exact .inr ⟨blocks', _, rfl, hbacks.of_heap (hbacks.heapInv.free 2 virt)⟩

theorem mem_backedFrom {i : ℕ} :
    i ∈ obj.backedFrom 0 obj.pages ↔ i < obj.pages ∧ obj.physicalBlocks i ≠ 0#32 := by
  simp only [backedFrom, Set.mem_ofPred_eq, Nat.zero_le, true_and, Nat.zero_add]

/-- A block that was free is not the null block. -/
theorem ne_zero_of_free {block : U32} {a : PhysAllocator} (h : block.toNat ∈ a.freeBlocks) :
    block ≠ 0#32 := by
  rintro rfl
  exact absurd h.1 (by decide)

/-- **If the new object comes without blocks of its own** the clone is right. -/
theorem Clones.of_backs {newBlocks : ℕ → U32}
    (howned : ∀ i ∈ obj.backedFrom 0 obj.pages, (obj.physicalBlocks i).toNat ∉ k.blocks.freeBlocks)
    (hfree : k₁.blocks.freeBlocks = k.blocks.freeBlocks)
    (hram : ∀ f ∉ k.blocks.freeBlocks, k₁.ram f = k.ram f)
    (hnew : ∀ i < obj.pages, obj.physicalBlocks i = 0#32 → newBlocks i = 0#32)
    (h : Backs (obj.backedFrom 0 obj.pages) (fun j ↦ k₁.ram (obj.physicalBlocks j).toNat) newBlocks
      obj'.physicalBlocks k₁ k') (hsize : obj'.size = obj.size) (hkind : obj'.kind = .physical)
    (huse : obj'.useCount.toInt ≤ 1) : Clones obj obj' k k' := by
  have hfresh : ∀ i ∈ obj.backedFrom 0 obj.pages,
      (obj'.physicalBlocks i).toNat ∈ k.blocks.freeBlocks := fun i hi ↦ hfree ▸ h.free i hi
  have hbacked : ∀ i < obj.pages,
      (obj'.physicalBlocks i ≠ 0#32 ↔ obj.physicalBlocks i ≠ 0#32) := by
    intro i hi
    by_cases hne : obj.physicalBlocks i = 0#32
    · have hout : i ∉ obj.backedFrom 0 obj.pages := fun hmem ↦ (mem_backedFrom.mp hmem).2 hne
      rw [h.others i hout, hnew i hi hne, hne]
    · exact iff_of_true (ne_zero_of_free (hfresh i (mem_backedFrom.mpr ⟨hi, hne⟩))) hne
  have hkept : ∀ i < obj.pages, obj.physicalBlocks i ≠ 0#32 →
      k'.ram (obj.physicalBlocks i).toNat = k.ram (obj.physicalBlocks i).toNat := by
    intro i hi hne
    have hout := howned i (mem_backedFrom.mpr ⟨hi, hne⟩)
    rw [h.ram_eq _ (hfree ▸ hout), hram _ hout]
  have hpages : obj'.pages = obj.pages := by rw [pages, pages, hsize]
  have hsame : obj'.backedFrom 0 obj'.pages = obj.backedFrom 0 obj.pages := by
    ext i
    rw [mem_backedFrom, mem_backedFrom, hpages]
    exact and_congr_right (hbacked i)
  refine ⟨hsize, hbacked, fun i hi hne ↦ ?_, fun i hi j hj hne hne' heq ↦ ?_, hkept, ?_⟩
  · rw [h.contents i (mem_backedFrom.mpr ⟨hi, hne⟩)]
    exact hram _ (howned i (mem_backedFrom.mpr ⟨hi, hne⟩))
  · have hmem := hfresh i (mem_backedFrom.mpr ⟨hi, (hbacked i hi).mp hne⟩)
    rw [heq] at hmem
    exact howned j (mem_backedFrom.mpr ⟨hj, hne'⟩) hmem
  · obtain ⟨a, hcall, ha⟩ := @freeBlocks_ok obj' obj'.pages 0 (fun j hj ↦ by
      have hmem := hfresh j (hsame ▸ hj)
      exact ⟨hmem.1, hmem.2.1⟩) k'.blocks
    refine ⟨{ k' with blocks := a }, (destruct_eq_ok hkind).mpr ⟨huse, a, hcall, rfl⟩, ?_⟩
    rw [ha, hsame, h.freeBlocks_eq, hfree, Set.sdiff_union_self, Set.union_eq_left]
    rintro _ ⟨i, hi, rfl⟩
    exact hfresh i hi

/-- **If each page had a block from the start**, the first of these is lost or should
not be there. -/
theorem not_clones_of_backs {newBlocks garbage : ℕ → U32} (hpos : 0 < obj.pages)
    (h₁ : Backs (Set.Ico 0 obj.pages) words garbage newBlocks k k₁)
    (h : Backs (obj.backedFrom 0 obj.pages) (fun j ↦ k₁.ram (obj.physicalBlocks j).toNat) newBlocks
      obj'.physicalBlocks k₁ k') (hsize : obj'.size = obj.size) (hkind : obj'.kind = .physical) :
    ¬ Clones obj obj' k k' := by
  intro hc
  have hin : ∀ i, i < obj.pages → i ∈ Set.Ico 0 obj.pages := fun i hi ↦ ⟨Nat.zero_le i, hi⟩
  have hfirst := h₁.free 0 (hin 0 hpos)
  by_cases hne : obj.physicalBlocks 0 = 0#32
  · -- the clone has a page that the source has not
    have hout : (0 : ℕ) ∉ obj.backedFrom 0 obj.pages := fun hmem ↦ (mem_backedFrom.mp hmem).2 hne
    have hblock : obj'.physicalBlocks 0 ≠ 0#32 := by
      rw [h.others 0 hout]
      exact ne_zero_of_free hfirst
    exact (hc.backed_iff 0 hpos).mp hblock hne
  · -- the block that the constructor took is not freed
    have hpages : obj'.pages = obj.pages := by rw [pages, pages, hsize]
    have hmem₀ : (0 : ℕ) ∈ obj.backedFrom 0 obj.pages := mem_backedFrom.mpr ⟨hpos, hne⟩
    have htaken : (newBlocks 0).toNat ∉ k₁.blocks.freeBlocks := by
      rw [h₁.freeBlocks_eq]
      exact fun hmem ↦ hmem.2 ⟨0, hin 0 hpos, rfl⟩
    obtain ⟨_, hdestruct, ha⟩ := hc.gives_back
    obtain ⟨-, a, hcall, rfl⟩ := (destruct_eq_ok hkind).mp hdestruct
    have ha : a.freeBlocks = k.blocks.freeBlocks := ha
    have hbound : ∀ j ∈ obj'.backedFrom 0 obj'.pages, (obj'.physicalBlocks j).toNat ≠
        (newBlocks 0).toNat ∧ 32 ≤ (obj'.physicalBlocks j).toNat ∧
        (obj'.physicalBlocks j).toNat < searchBound * 32 := by
      intro j hj
      have hlt : j < obj.pages := hpages ▸ (mem_backedFrom.mp hj).1
      by_cases hj' : j ∈ obj.backedFrom 0 obj.pages
      · have hfree := h.free j hj'
        exact ⟨fun heq ↦ htaken (heq ▸ hfree), hfree.1, hfree.2.1⟩
      · have hfree := h₁.free j (hin j hlt)
        rw [← h.others j hj'] at hfree
        refine ⟨fun heq ↦ hj' ?_, hfree.1, hfree.2.1⟩
        rw [h.others j hj'] at heq
        rw [h₁.inj j (hin j hlt) 0 (hin 0 hpos) heq]
        exact hmem₀
    obtain ⟨a', hcall', ha'⟩ := freeBlocks_ok (fun j hj ↦ (hbound j hj).2) k'.blocks
    rw [hcall] at hcall'
    cases hcall'
    rw [ha] at ha'
    rw [ha', h.freeBlocks_eq] at hfirst
    rcases hfirst with hfree | ⟨j, hj, heq⟩
    · exact htaken hfree.1
    · exact (hbound j hj).1 heq

/-- An object is what its constructor asserts, its array has a number for each page, and the blocks
in it are not free. -/
structure Sound (obj : VmObject) (k : KernelMem) : Prop where
  aligned : obj.size.toNat % 4096 = 0
  counted : obj.pages < 2 ^ 32
  owned : ∀ i < obj.pages, obj.physicalBlocks i ≠ 0#32 →
    (obj.physicalBlocks i).toNat ∉ k.blocks.freeBlocks

theorem Sound.owned_of_mem (h : Sound obj k) {i : ℕ} (hi : i ∈ obj.backedFrom 0 obj.pages) :
    (obj.physicalBlocks i).toNat ∉ k.blocks.freeBlocks :=
  h.owned i (mem_backedFrom.mp hi).1 (mem_backedFrom.mp hi).2

/-- A clone that can be destroyed. -/
theorem Clones.useCount_le (h : Clones obj obj' k k') (hkind : obj'.kind = .physical) :
    obj'.useCount.toInt ≤ 1 := by
  obtain ⟨_, hdestruct, -⟩ := h.gives_back
  exact ((destruct_eq_ok hkind).mp hdestruct).1

section

variable (phys : PhysOf) (garbage : VmObject)

/-- The clone of an anonymous object. -/
theorem clone_anonymous (hk : KernelInv k) (hobj : Sound obj k) (hkind : obj.isAnonymous = true) :
    (∃ e, obj.clone phys garbage k = .error e ∧ e.Exhausted) ∨
      ∃ obj' k', obj.clone phys garbage k = .ok (obj', k') ∧
        (Clones obj obj' k k' ↔ garbage.Releasable) := by
  have hcount : obj.size.toNat / 4096 < 2 ^ 32 := obj.toNat_pages ▸ hobj.counted
  have hnew : newPhysical phys garbage obj.size obj.isAnonymous k =
      .ok (anonymous obj.size garbage, k) := by
    rw [newPhysical, if_neg (not_not.mpr (Regions.and_fff_eq_zero.mpr hobj.aligned)), hkind,
      if_pos rfl]
  refine (clone_of_new hnew hk fun i hi ↦ hobj.owned_of_mem hi).imp_right ?_
  rintro ⟨blocks', k', hcall, hbacks⟩
  refine ⟨_, k', hcall, fun hc ↦ hc.useCount_le rfl, fun huse ↦ .of_backs
    (fun i hi ↦ hobj.owned_of_mem hi) rfl (fun _ _ ↦ rfl) ?_ hbacks rfl rfl huse⟩
  intro i hi _
  rw [pages, toNat_pages] at hi
  exact if_pos (by rwa [toNat_pageCount4K hobj.aligned hcount])

/-- The clone of an object that is not. -/
theorem clone_image (hk : KernelInv k) (hobj : Sound obj k) (hkind : obj.isAnonymous = false) :
    (∃ e, obj.clone phys garbage k = .error e ∧ e.Exhausted) ∨
      ∃ obj' k', obj.clone phys garbage k = .ok (obj', k') ∧
        (Clones obj obj' k k' ↔ obj.pages = 0 ∧ garbage.Releasable) := by
  have hpages : obj.pages = obj.size.toNat / 4096 := obj.toNat_pages
  have hcount : obj.size.toNat / 4096 < 2 ^ 32 := hpages ▸ hobj.counted
  rcases newPhysical_image phys garbage hk hobj.aligned hcount with ⟨e, he, hexhausted⟩ |
    ⟨blocks, k₁, hnew, hfirst⟩
  · refine .inl ⟨e, ?_, hexhausted⟩
    rw [clone, hkind, he]
    rfl
  · have howned : ∀ i ∈ obj.backedFrom 0 obj.pages,
        (obj.physicalBlocks i).toNat ∉ k₁.blocks.freeBlocks := fun i hi hmem ↦ by
      rw [hfirst.freeBlocks_eq] at hmem
      exact hobj.owned_of_mem hi hmem.1
    rw [← hpages] at hfirst
    have hnew' : newPhysical phys garbage obj.size obj.isAnonymous k =
        .ok (⟨obj.size, garbage.useCount, false, false, blocks, .physical⟩, k₁) := by
      rw [hkind]
      exact hnew
    refine (clone_of_new hnew' hfirst.toKernelInv howned).imp_right ?_
    rintro ⟨blocks', k', hcall, hbacks⟩
    refine ⟨_, k', hcall, fun hc ↦ ⟨?_, hc.useCount_le rfl⟩, fun ⟨hnone, huse⟩ ↦ ?_⟩
    · by_contra hpos
      exact absurd hc (not_clones_of_backs (Nat.pos_of_ne_zero hpos) hfirst hbacks rfl rfl)
    · refine .of_backs (fun i hi ↦ hobj.owned_of_mem hi) ?_ hfirst.ram_eq
        (fun i hi ↦ absurd hi (by omega)) hbacks rfl rfl huse
      rw [hfirst.freeBlocks_eq, hnone, Set.Ico_self, Set.image_empty, Set.sdiff_empty]

/-- **When `clone` is right.**  It returns, unless there is not enough memory; and then the clone is
what it should be if the source is anonymous or has no pages and what was at the clone's
`_use_count` lets its destructor pass, and only then. -/
theorem clones_iff (hk : KernelInv k) (hobj : Sound obj k) :
    (∃ e, obj.clone phys garbage k = .error e ∧ e.Exhausted) ∨
      ∃ obj' k', obj.clone phys garbage k = .ok (obj', k') ∧
        (Clones obj obj' k k' ↔
          (obj.isAnonymous = true ∨ obj.pages = 0) ∧ garbage.Releasable) := by
  cases hkind : obj.isAnonymous with
  | true =>
    refine (clone_anonymous phys garbage hk hobj hkind).imp_right ?_
    rintro ⟨obj', k', hcall, hclones⟩
    exact ⟨obj', k', hcall, hclones.trans (and_iff_right (.inl rfl)).symm⟩
  | false =>
    refine (clone_image phys garbage hk hobj hkind).imp_right ?_
    rintro ⟨obj', k', hcall, hclones⟩
    refine ⟨obj', k', hcall, hclones.trans ?_⟩
    rw [or_iff_right Bool.false_ne_true]

end

/-- An object of one page, in block 20. -/
def onePage (isAnonymous : Bool) : VmObject :=
  ⟨0x1000, 1, isAnonymous, false, fun _ ↦ 20, .physical⟩

theorem sound_onePage (isAnonymous : Bool) (k : KernelMem) : Sound (onePage isAnonymous) k where
  aligned := by cases isAnonymous <;> decide
  counted := by cases isAnonymous <;> decide
  owned _ _ _ hmem := absurd hmem.1 (by change ¬ 32 ≤ (20#32).toNat; decide)

/-- The kernel of a machine of four megabytes. -/
def quietMem : KernelMem := PageMap.fourMegMem fun _ _ ↦ 0#64

theorem kernelInv_quietMem : KernelInv quietMem :=
  (PageMap.fourMegMem_supply fun _ _ ↦ 0#64).toKernelInv

theorem clones_iff_onePage :
    (∃ e, (onePage true).clone (fun _ ↦ 0) emptyObject quietMem = .error e ∧ e.Exhausted) ∨
      ∃ obj' k', (onePage true).clone (fun _ ↦ 0) emptyObject quietMem = .ok (obj', k') ∧
        (Clones (onePage true) obj' quietMem k' ↔
          ((onePage true).isAnonymous = true ∨ (onePage true).pages = 0) ∧
            emptyObject.Releasable) :=
  clones_iff (fun _ ↦ 0) emptyObject kernelInv_quietMem (sound_onePage true quietMem)

/-- The clone of a page that is not anonymous is not right. -/
theorem not_clones_onePage : ∃ obj' k',
    (onePage false).clone (fun _ ↦ 0) emptyObject quietMem = .ok (obj', k') ∧
      ¬ Clones (onePage false) obj' quietMem k' := by
  have hok : ((onePage false).clone (fun _ ↦ 0) emptyObject quietMem).toBool = true := by
    decide +kernel
  have hone : (onePage false).pages ≠ 0 := by
    change (0x1000#64 >>> 12).toNat ≠ 0
    decide
  rcases clone_image (fun _ ↦ 0) emptyObject kernelInv_quietMem
    (sound_onePage false quietMem) rfl with
    ⟨e, he, -⟩ | ⟨obj', k', hcall, hclones⟩
  · rw [he] at hok
    cases hok
  · exact ⟨obj', k', hcall, fun hc ↦ hone (hclones.mp hc).1⟩

end VmObject

end Borrrdex
