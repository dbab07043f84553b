import Borrrdex.Mm.VmObject

/-!
# Demand paging

A new anonymous object has no memory.  `map_allocated_blocks` gives each of its pages an entry that
is not present, and `hit` backs a page when it is first touched: it takes a block, maps it, and
clears it — through the page itself if the page map is the one loaded, else through a temporary
page of the kernel heap.  A second fault on the page maps the block again.

`DemandInv` is what a run of faults keeps: the pages hit so far have a block each, no two the same,
their words frame these blocks, and every other word of the map is as it was.  No table is ever
made, since mapping the object has made them all, so the page map itself never changes; a block
that is cleared was free just before and is in no table.

`demand_paging` reads the statement off the invariant, for as long as there is memory: one block
for each page, and a page of the heap for the temporary mappings.  `demand_paging_out_of_memory` is
what happens otherwise.
-/

set_option autoImplicit false

namespace Borrrdex

open PageMap KernelMem KernelHeap PhysAllocator PageWalk

/-- `PHYS_BLOCK_MAX`.  `0xffffffff` has 32 bits, and so has the shifted number. -/
def physBlockMax : U64 := (0xffffffff#32 <<< 12).setWidth 64

namespace KernelMem

/-- The block the hardware finds for an address, from the PML4 in block `root` on. -/
def mappedBlock (ram : Nat → Nat → U64) (root : Nat) (virt : U64) : Option Nat :=
  match (walk entryFormat ram root (walkPath virt)).page entryFormat with
  | none => none
  | some (0, e) => some (frameOf e)
  | some (1, e) => some (frameOf e / 512 * 512 + ptIndex virt)
  | some (_, e) => some (frameOf e / 2 ^ 18 * 2 ^ 18 + 512 * pdeIndex virt + ptIndex virt)

/-- `memset(virt, 0, PAGE_SIZE_4K)` through the page map that is loaded. -/
def clearLoaded (root : Nat) (virt : U64) (k : KernelMem) : Except Halt KernelMem :=
  match mappedBlock k.ram root virt with
  | none => .error .pageFault
  | some f => .ok { k with ram := Function.update k.ram f fun _ ↦ 0#64 }

/-- The other way to clear a block: a temporary mapping. -/
def clearMapped (phys : PhysOf) (frame : U64) (k : KernelMem) : Except Halt KernelMem := do
  let (mapping, heap) ← kernelAllocate4kPages phys 1 k.heap
  let k ← { k with
      heap := kernelMapVirtualMemory4k kernelFlags 1 frame mapping heap }.fillPage mapping
    fun _ ↦ 0#64
  return { k with heap := kernelFree4kPages 1 mapping k.heap }

/-- `hit` clears a new block directly if the page map is the one `cr3` says is loaded. -/
def clearBlock (phys : PhysOf) (cr3 : U64) (m : PageMap) (frame virt : U64) (k : KernelMem) :
    Except Halt KernelMem :=
  if cr3 = m.pml4Phys then k.clearLoaded m.pml4Frame (virt &&& 0xFFFFFFFFFFFFF000#64)
  else k.clearMapped phys frame

end KernelMem

namespace VmObject

/-- `_physical_blocks[i] = block`. -/
def setBlock (obj : VmObject) (i : Nat) (block : U32) : VmObject :=
  { obj with physicalBlocks := Function.update obj.physicalBlocks i block }

theorem physicalBlocks_setBlock_self (obj : VmObject) (i : Nat) (block : U32) :
    (obj.setBlock i block).physicalBlocks i = block := Function.update_self _ _ _

theorem physicalBlocks_setBlock_of_ne (obj : VmObject) {i j : Nat} (hj : j ≠ i) (block : U32) :
    (obj.setBlock i block).physicalBlocks j = obj.physicalBlocks j := Function.update_of_ne hj _ _

/-- `physical_vm_object::hit`: the status, the object, and the page map with the kernel's memory.
`cr3` is what the register holds. -/
def hit (phys : PhysOf) (cr3 base offset : U64) (obj : VmObject) (m : PageMap) (k : KernelMem) :
    Except Halt (Int × VmObject × PageMap × KernelMem) :=
  let blockIndex := ((offset >>> 12).setWidth 32 : U32).toNat
  if (obj.size >>> 12).toNat ≤ blockIndex then .error .hitOutsideObject
  else if obj.physicalBlocks blockIndex ≠ 0#32 then do
    let (m, _, k) ←
      mapVirtualMemory4k phys userFlags 1 (obj.blockOf blockIndex) (base + offset) m k
    return (0, obj, m, k)
  else if obj.isAnonymous = false then .error .hitNotAnonymous
  else do
    let (frame, blocks) ← k.blocks.allocatePhysicalBlock
    if physBlockMax ≤ frame then .error .blockTooHigh
    else if frame = 0#64 then return (1, obj, m, { k with blocks := blocks })
    else
      let obj := obj.setBlock blockIndex ((frame >>> 12).setWidth 32)
      let (m, _, k) ←
        mapVirtualMemory4k phys userFlags 1 frame (base + offset) m { k with blocks := blocks }
      let k ← k.clearBlock phys cr3 m frame (base + offset)
      return (0, obj, m, k)

/-- `used_physical_memory`: blocks are counted, and shifted, in 32 bits. -/
def usedPhysicalMemory (obj : VmObject) : U64 :=
  if obj.isAnonymous = false then obj.size
  else
    let blockCount : U32 := BitVec.ofNat 32
      ((List.range (obj.size >>> 12).toNat).countP fun i ↦ obj.physicalBlocks i != 0#32)
    (blockCount <<< 12).setWidth 64

/-- One fault after the other, each with the value of `cr3` and the address; the statuses are
collected. -/
def hits (phys : PhysOf) (base : U64) : List (U64 × U64) → VmObject → PageMap → KernelMem →
    Except Halt (List Int × VmObject × PageMap × KernelMem)
  | [], obj, m, k => .ok ([], obj, m, k)
  | (cr3, fault) :: faults, obj, m, k => do
    let (status, obj, m, k) ← obj.hit phys cr3 base (fault - base) m k
    let (statuses, obj, m, k) ← hits phys base faults obj m k
    return (status :: statuses, obj, m, k)

end VmObject

/-! ## Temporary mappings -/

/-- A page that is mapped for a while and freed again leaves every translation as it was. -/
theorem KernelHeap.HeapInv.temporary {phys : PhysOf} {h h₁ : KernelHeap} (hinv : HeapInv h)
    {virt : U64} (hcall : kernelAllocate4kPages phys 1 h = .ok (virt, h₁)) (frame : U64) :
    HeapInv (kernelFree4kPages 1 virt (kernelMapVirtualMemory4k kernelFlags 1 frame virt h₁)) ∧
      (∀ v, (kernelFree4kPages 1 virt
          (kernelMapVirtualMemory4k kernelFlags 1 frame virt h₁)).translate v = h.translate v) ∧
      (kernelFree4kPages 1 virt
        (kernelMapVirtualMemory4k kernelFlags 1 frame virt h₁)).freePages = h.freePages := by
  obtain ⟨start, ha⟩ := kernelAllocate4kPages_spec hinv le_rfl hcall
  have hstart : start < heapPages := by
    have := ha.inside
    omega
  have hidx : heapIndex virt = start := by rw [ha.addr_eq, heapIndex_heapPage hstart]
  obtain ⟨hdir, hclear, hrest⟩ := kernelFree4kPages_spec 1 virt
    (kernelMapVirtualMemory4k kernelFlags 1 frame virt h₁)
  have hdir₁ : (kernelFree4kPages 1 virt
      (kernelMapVirtualMemory4k kernelFlags 1 frame virt h₁)).dir = h₁.dir := hdir
  generalize kernelFree4kPages 1 virt (kernelMapVirtualMemory4k kernelFlags 1 frame virt h₁) = h₂
    at hdir hdir₁ hclear hrest ⊢
  -- the page itself was not present, and no other entry has changed
  have hpage : present (h.entry start) = false := ha.was_free start le_rfl (by omega)
  have hpage₂ : present (h₂.entry start) = false := by
    have h0 := hclear 0 (by omega)
    rw [pageAt_zero, hidx] at h0
    rw [h0]
    decide
  have hentry : ∀ p, p ≠ start → h₂.entry p = h.entry p := by
    intro p hp
    rw [hrest p fun j hj ↦ by rw [show j = 0 by omega, pageAt_zero, hidx]; exact hp, entry_map_one,
      if_neg (by rw [hidx]; exact hp), ha.entry_eq, if_neg (by omega)]
  have hpresent : ∀ p, present (h₂.entry p) = present (h.entry p) := by
    intro p
    by_cases hp : p = start
    · rw [hp, hpage, hpage₂]
    · rw [hentry p hp]
  refine ⟨⟨fun p hp ↦ ?_, fun d ↦ ?_⟩, fun v ↦ ?_, ?_⟩
  · rw [hpresent]
    rw [hdir₁] at hp
    cases hd : present (h.dir (p / 512)) with
    | false => exact hinv.unused_empty p hd
    | true =>
      rw [ha.dir_mono _ hd, hd] at hp
      cases hp
  · rw [hdir₁, ha.large_eq]
    exact hinv.not_large d
  · refine Option.ext fun f ↦ ?_
    rw [translate_eq_some, translate_eq_some, hpresent, hdir₁,
      ha.large_eq]
    refine and_congr_right fun _ ↦ and_congr_right fun _ ↦ ?_
    by_cases hp : present (h.entry (heapIndex v)) = true
    · have hne : heapIndex v ≠ start := by
        intro heq
        rw [heq, hpage] at hp
        cases hp
      have hd : present (h.dir (pdeIndex v)) = true := by
        rw [← heapIndex_div]
        by_contra hd
        rw [hinv.unused_empty _ (Bool.not_eq_true _ ▸ hd)] at hp
        cases hp
      rw [hentry _ hne, ha.dir_mono _ hd]
    · exact iff_of_false (fun h ↦ hp h.2.2.1) fun h ↦ hp h.2.2.1
  · ext p
    simp only [freePages, Set.mem_ofPred_eq, hpresent]

/-- **A block cleared through a temporary mapping**: the heap has the same pages as before. -/
theorem KernelMem.clearMapped_eq (phys : PhysOf) {k : KernelMem} (hinv : HeapInv k.heap)
    (hfree : k.heap.freePages.Nonempty) {b : Nat} (hb : b < 2 ^ 40) :
    ∃ heap, k.clearMapped phys (blockAddr b) =
        .ok { k with heap := heap, ram := Function.update k.ram b fun _ ↦ 0#64 } ∧
      HeapInv heap ∧ (∀ v, heap.translate v = k.heap.translate v) ∧
      heap.freePages = k.heap.freePages := by
  obtain ⟨p, hp, hpage⟩ := hfree
  obtain ⟨⟨virt, h₁⟩, hcall⟩ := kernelAllocate4kPages_one phys hinv hp hpage
  obtain ⟨start, ha⟩ := kernelAllocate4kPages_spec hinv le_rfl hcall
  have hstart : start < heapPages := by
    have := ha.inside
    omega
  have htranslate : (kernelMapVirtualMemory4k kernelFlags 1 (blockAddr b) virt h₁).translate virt =
      some b := by
    have hdir : present (h₁.dir (pdeIndex virt)) = true := by
      rw [ha.addr_eq, pdeIndex_heapPage hstart]
      exact ha.in_use start le_rfl (by omega)
    rw [translate_eq_some, entry_map_one, if_pos rfl, present_setPageFrame, frameOf_setPageFrame,
      frameOf_blockAddr hb]
    exact ⟨by rw [ha.addr_eq]; exact pml4Index_heapPage hstart,
      by rw [ha.addr_eq]; exact pdptIndex_heapPage hstart, hdir, (ha.heapInv hinv).not_large _,
      by decide, rfl⟩
  refine ⟨_, ?_, hinv.temporary hcall (blockAddr b)⟩
  rw [clearMapped, hcall]
  simp only [Except.bind, bind, pure, Except.pure]
  rw [fillPage_eq (k := { k with
    heap := kernelMapVirtualMemory4k kernelFlags 1 (blockAddr b) virt h₁ }) htranslate]

/-! ## Changes to the memory below a page map -/

namespace PageMap

theorem WellFormed.of_ram {k k' : KernelMem} {m : PageMap} (hw : WellFormed k m)
    (hs : Shadows k' m) (hpml4 : k'.ram m.pml4Frame = k.ram m.pml4Frame)
    (hpdpt : k'.ram m.pdptFrame = k.ram m.pdptFrame) : WellFormed k' m :=
  ⟨hs, by rw [hpml4]; exact hw.pml4_entry, fun i hi ↦ by rw [hpdpt]; exact hw.pdpt_entry i hi⟩

/-- The memory with word `e` for user page `p`. -/
def wordRam (k : KernelMem) (m : PageMap) (p : Nat) (e : U64) : Nat → Nat → U64 :=
  let f := tableFrame k m (p / 2 ^ 18) (p / 512 % 512)
  Function.update k.ram f (Function.update (k.ram f) (p % 512) e)

theorem pageTables_ne_of_word {k : KernelMem} {m : PageMap} {p : Nat} (h : word k m p ≠ none) :
    m.pageTables (p / 2 ^ 18) (p / 512 % 512) ≠ 0#64 := by
  intro h0
  rw [word, if_pos h0] at h
  exact h rfl

/-- A word that changes in a map that does not. -/
theorem SameWord.eq_of_ne {w w' : Option U64} (h : SameWord w w') (hw : w = none → w' = none) :
    w' = w := by
  rcases h with h | ⟨h, h'⟩
  · exact h
  · rw [hw h] at h'
    cases h'

/-- Writing the word of a page changes no other. -/
theorem MapInv.step_of_wordRam {k : KernelMem} {m : PageMap} (hm : MapInv k m) {p : Nat}
    (hp : p < 2 ^ 27) (hword : word k m p ≠ none) (e : U64) :
    k.store (m.pageTables (p / 2 ^ 18) (p / 512 % 512)) (p % 512) e =
        .ok { k with ram := wordRam k m p e } ∧
      Step k m {p} [] { k with ram := wordRam k m p e } m ∧
      word { k with ram := wordRam k m p e } m p = some e := by
  have ht := pageTables_ne_of_word hword
  have hstore := store_eq (hm.table_ptr _ (by omega) _ (Nat.mod_lt _ (by decide)) ht) (p % 512) e
  obtain ⟨k', hstore', hstep, hnew⟩ := hm.step_of_store hp ht e
  obtain rfl := Except.ok.inj (hstore.symm.trans hstore')
  exact ⟨hstore, hstep, hnew⟩

/-- **Mapping a page whose table is there**: the word is written, and that is all. -/
theorem MapInv.map_existing (phys : PhysOf) {k : KernelMem} {m : PageMap} (hm : MapInv k m)
    (flags frame : U64) {virt : U64} (hvirt : pml4Index virt = 0)
    (hword : word k m (pageNumber virt) ≠ none) :
    PageMap.mapVirtualMemory4k phys flags 1 frame virt m k =
      .ok (m, [], { k with ram := wordRam k m (pageNumber virt) (setPageFrame flags frame) }) := by
  obtain ⟨hp, hi, hj, hl⟩ := pageNumber_eq virt
  have ht := pageTables_ne_of_word hword
  obtain ⟨hstore, -, -⟩ := hm.step_of_wordRam hp hword (setPageFrame flags frame)
  rw [hi, hj, hl] at hstore
  rw [hi, hj] at ht
  rw [mapVirtualMemory4k_one, hm.mapPage_eq phys flags frame hvirt,
    hm.ensurePageTable_of_table phys (by omega) (pdeIndex_lt virt) ht]
  simp only [hstore, Except.bind, bind, pure, Except.pure]

/-- The other words stay, as the map has no new table. -/
theorem word_of_step {k k' : KernelMem} {m : PageMap} {changed : Set Nat} {taken : List U64}
    (h : Step k m changed taken k' m) {p : Nat} (hp : p < 2 ^ 27) (hnot : p ∉ changed) :
    word k' m p = word k m p := by
  refine (h.same p hp hnot).eq_of_ne fun hnone ↦ ?_
  rw [word] at hnone ⊢
  split at hnone
  · next h0 => rw [if_pos h0]
  · cases hnone

/-- **Clearing a block that is in no table** changes nothing the map knows of. -/
theorem MapInv.clear {k : KernelMem} {m : PageMap} (hm : MapInv k m) {b : Nat}
    (hb : ∀ x, m.Live x → nodeFrame k m x ≠ b) :
    MapInv { k with ram := Function.update k.ram b fun _ ↦ 0#64 } m ∧
      ∀ p < 2 ^ 27, word { k with ram := Function.update k.ram b fun _ ↦ 0#64 } m p =
        word k m p := by
  have hdir : ∀ i < 512, Function.update k.ram b (fun _ ↦ 0#64) (m.dirFrame i) =
      k.ram (m.dirFrame i) := fun i hi ↦ Function.update_of_ne (hb (.dir i) hi) _ _
  refine ⟨hm.of_extends (hm.extends_ram _) fun i hi j _ ↦ congrFun (hdir i hi) j, fun p hp ↦ ?_⟩
  have hi : p / 2 ^ 18 < 512 := by omega
  rw [word, word]
  split
  · rfl
  · next ht =>
    have hframe : tableFrame { k with ram := Function.update k.ram b fun _ ↦ 0#64 } m (p / 2 ^ 18)
        (p / 512 % 512) = tableFrame k m (p / 2 ^ 18) (p / 512 % 512) :=
      congrArg frameOf (congrFun (hdir _ hi) _)
    have hne := hb (.table (p / 2 ^ 18) (p / 512 % 512)) ⟨hi, Nat.mod_lt _ (by decide), ht⟩
    rw [hframe]
    exact congrArg some (congrFun (Function.update_of_ne hne _ _) _)

/-- Taking a block leaves the map as it is. -/
theorem MapInv.of_blocks {k : KernelMem} {m : PageMap} (hm : MapInv k m) {blocks : PhysAllocator}
    (hhint : HintInv blocks) (hsub : blocks.freeBlocks ⊆ k.blocks.freeBlocks) :
    MapInv { k with blocks := blocks } m :=
  hm.of_extends ⟨⟨hhint, hm.heapInv⟩, hsub, fun _ _ h ↦ h⟩ fun _ _ _ _ ↦ rfl

end PageMap

/-! ## Addresses of a region -/

/-- The page of a region a fault falls in. -/
def faultPage (base fault : U64) : Nat := (fault - base).toNat / 4096

/-- The pages a list of faults falls in. -/
def hitPages (base : U64) (faults : List (U64 × U64)) : Finset Nat :=
  (faults.map fun x ↦ faultPage base x.2).toFinset

theorem hitPages_cons (base : U64) (x : U64 × U64) (faults : List (U64 × U64)) :
    hitPages base (x :: faults) = insert (faultPage base x.2) (hitPages base faults) := by
  simp [hitPages]

theorem hitPages_append (base : U64) (faults faults' : List (U64 × U64)) :
    hitPages base (faults ++ faults') = hitPages base faults ∪ hitPages base faults' := by
  simp [hitPages]

/-- An address inside a region of user pages. -/
theorem UserRange.page {base : U64} {n : Nat} (hrange : UserRange base.toNat (4096 * n))
    (hbase : base.toNat % 4096 = 0) {offset : U64} (hoff : offset.toNat < 4096 * n) :
    pml4Index (base + offset) = 0 ∧
      pageNumber (base + offset) = pageNumber base + offset.toNat / 4096 := by
  rw [UserRange] at hrange
  have hlt := base.isLt
  have hsum : (base + offset).toNat = base.toNat + offset.toNat := by
    rw [BitVec.toNat_add]
    omega
  rw [pageNumber, pageNumber, Borrrdex.pml4Index_eq, hsum]
  omega

/-- A page of such a region. -/
theorem UserRange.pageAt {base : U64} {n : Nat} (hrange : UserRange base.toNat (4096 * n))
    {i : Nat} (hi : i < n) :
    pml4Index (Borrrdex.pageAt base i) = 0 ∧
      pageNumber (Borrrdex.pageAt base i) = pageNumber base + i ∧ pageNumber base + i < 2 ^ 27 := by
  rw [UserRange] at hrange
  rw [pml4Index_pageAt, pageNumber, pageNumber, toNat_pageAt]
  have hlt := base.isLt
  omega

/-- Clearing the low bits of an address leaves its page. -/
theorem walkPath_mask (virt : U64) : walkPath (virt &&& 0xFFFFFFFFFFFFF000#64) = walkPath virt := by
  simp only [walkPath, pml4Index, pdptIndex, pdeIndex, ptIndex, BitVec.ushiftRight_and_distrib,
    BitVec.and_assoc]
  rfl

namespace VmObject

theorem blockOf_eq (obj : VmObject) (i : Nat) :
    obj.blockOf i = blockAddr (obj.physicalBlocks i).toNat := by
  rw [blockOf, blockAddr, BitVec.ofNat_toNat]

/-- The block `hit` stores. -/
theorem toNat_blockAddr_block {b : Nat} (hb : b < 2 ^ 20) :
    (((blockAddr b) >>> 12).setWidth 32 : U32).toNat = b := by
  rw [BitVec.toNat_setWidth, blockAddr_shiftRight (by omega)]
  omega

end VmObject

namespace PageMap

/-- Writing a word that is there already. -/
theorem wordRam_self {k : KernelMem} {m : PageMap} {p : Nat} {e : U64} (h : word k m p = some e) :
    wordRam k m p e = k.ram := by
  rw [word] at h
  split at h
  · cases h
  · rw [← Option.some.inj h, wordRam]
    simp only [Function.update_eq_self]

/-- The block the hardware finds for a user page, from its word. -/
theorem WellFormed.mappedBlock_eq {k : KernelMem} {m : PageMap} (hw : WellFormed k m) {virt : U64}
    (hvirt : pml4Index virt = 0) {e : U64} (hword : word k m (pageNumber virt) = some e)
    (he : present e = true) :
    mappedBlock k.ram m.pml4Frame (virt &&& 0xFFFFFFFFFFFFF000#64) = some (frameOf e) := by
  rw [mappedBlock, walkPath_mask, walkPath_eq hvirt, hw.walk_word (pageNumber_eq virt).1, hword,
    wordEnd, End.page, if_pos (show entryFormat.present e = true from he)]
  rfl

/-- **Both ways of clearing a page** clear its block, and the heap is no worse after it. -/
theorem WellFormed.clearBlock_eq (phys : PhysOf) {k : KernelMem} {m : PageMap} (hw : WellFormed k m)
    (hinv : HeapInv k.heap) {virt : U64} (hvirt : pml4Index virt = 0) {b : Nat} (hb : b < 2 ^ 40)
    (hword : word k m (pageNumber virt) = some (setPageFrame userFlags (blockAddr b))) (cr3 : U64)
    (hfree : cr3 ≠ m.pml4Phys → k.heap.freePages.Nonempty) :
    ∃ heap, k.clearBlock phys cr3 m (blockAddr b) virt =
        .ok { k with heap := heap, ram := Function.update k.ram b fun _ ↦ 0#64 } ∧
      HeapInv heap ∧ (∀ v, heap.translate v = k.heap.translate v) ∧
      heap.freePages = k.heap.freePages := by
  rw [clearBlock]
  split
  · refine ⟨k.heap, ?_, hinv, fun _ ↦ rfl, rfl⟩
    have hblock := hw.mappedBlock_eq hvirt hword
      (by rw [present_setPageFrame]; decide)
    rw [frameOf_setPageFrame, frameOf_blockAddr hb] at hblock
    rw [clearLoaded, hblock]
  · next hcr3 => exact clearMapped_eq phys hinv (hfree hcr3) hb

/-- The kernel's memory after page `p` was given block `b`, which was cleared. -/
def withBlock (k : KernelMem) (m : PageMap) (p b : Nat) (blocks : PhysAllocator)
    (heap : KernelHeap) : KernelMem where
  blocks := blocks
  heap := heap
  ram := Function.update (wordRam k m p (setPageFrame userFlags (blockAddr b))) b fun _ ↦ 0#64

/-- A page that is given a free block: its word frames the block, and the map is otherwise as it
was. -/
theorem MapInv.withBlock {k : KernelMem} {m : PageMap} (hm : MapInv k m) (hw : WellFormed k m)
    {p b : Nat} (hp : p < 2 ^ 27) (hsome : word k m p ≠ none) (hb : b ∈ k.blocks.freeBlocks)
    {blocks : PhysAllocator} (hhint : HintInv blocks)
    (hsub : blocks.freeBlocks ⊆ k.blocks.freeBlocks) {heap : KernelHeap} (hheap : HeapInv heap)
    (htranslate : ∀ v, heap.translate v = k.heap.translate v) :
    MapInv (PageMap.withBlock k m p b blocks heap) m ∧
      WellFormed (PageMap.withBlock k m p b blocks heap) m ∧
      word (PageMap.withBlock k m p b blocks heap) m p =
        some (setPageFrame userFlags (blockAddr b)) ∧
      (∀ q < 2 ^ 27, q ≠ p → word (PageMap.withBlock k m p b blocks heap) m q = word k m q) ∧
      ∀ f, f ≠ b → f ≠ tableFrame k m (p / 2 ^ 18) (p / 512 % 512) →
        (PageMap.withBlock k m p b blocks heap).ram f = k.ram f := by
  obtain ⟨-, hstep, hword⟩ := hm.step_of_wordRam hp hsome (setPageFrame userFlags (blockAddr b))
  -- the block is free until now, so it is in none of the tables
  have hnode := fun x hx ↦ hstep.inv.ne_of_free hb (x := x) hx
  obtain ⟨hclear, hwords⟩ := hstep.inv.clear hnode
  have hinv : MapInv (PageMap.withBlock k m p b blocks heap) m :=
    hclear.of_extends ⟨⟨hhint, hheap⟩, hsub, fun v f hf ↦ (htranslate v).trans hf⟩
      fun _ _ _ _ ↦ rfl
  refine ⟨hinv, hw.of_ram hinv.toShadows ?_ ?_, (hwords p hp).trans hword, fun q hq hne ↦ ?_,
    fun f hfb hft ↦ ?_⟩
  · exact (Function.update_of_ne (hnode .pml4 trivial) _ _).trans hstep.pml4_ram
  · exact (Function.update_of_ne (hnode .pdpt trivial) _ _).trans hstep.pdpt_ram
  · exact (hwords q hq).trans (word_of_step hstep hq hne)
  · exact (Function.update_of_ne hfb _ _).trans (Function.update_of_ne hft _ _)

end PageMap

/-- The block of the page table of page `i` of a region. -/
def PageMap.regionTable (k : KernelMem) (m : PageMap) (base : U64) (i : Nat) : Nat :=
  tableFrame k m ((pageNumber base + i) / 2 ^ 18) ((pageNumber base + i) / 512 % 512)

/-! ## The invariant -/

/-- **What a run of faults keeps**, in a region of `n` pages from `base` on.  `k₁` is the kernel's
memory before the first fault, and `hit` are the pages that have been touched. -/
structure DemandInv (base : U64) (n : Nat) (m : PageMap) (k₁ : KernelMem) (hit : Finset Nat)
    (obj : VmObject) (k : KernelMem) : Prop extends MapInv k m where
  wellFormed : WellFormed k m
  pages : (obj.size >>> 12).toNat = n
  anonymous : obj.isAnonymous = true
  hit_lt : ∀ i ∈ hit, i < n
  block_taken : ∀ i ∈ hit, (obj.physicalBlocks i).toNat ∈ k₁.blocks.freeBlocks ∧
    (obj.physicalBlocks i).toNat ∉ k.blocks.freeBlocks
  backed : ∀ i ∈ hit, word k m (pageNumber base + i) = some (setPageFrame userFlags (obj.blockOf i))
  unbacked : ∀ i < n, i ∉ hit → obj.physicalBlocks i = 0#32 ∧
    word k m (pageNumber base + i) = some (setPageFrame pageUser 0#64)
  distinct_blocks : ∀ i ∈ hit, ∀ j ∈ hit, obj.physicalBlocks i = obj.physicalBlocks j → i = j
  outside : ∀ p < 2 ^ 27, (∀ i < n, p ≠ pageNumber base + i) → word k m p = word k₁ m p
  ram_same : ∀ f ∉ k₁.blocks.freeBlocks, (∀ i < n, f ≠ regionTable k₁ m base i) →
    k.ram f = k₁.ram f
  translate_same : ∀ v, k.heap.translate v = k₁.heap.translate v
  freeBlocks_subset : k.blocks.freeBlocks ⊆ k₁.blocks.freeBlocks
  freeBlocks_card : k.blocks.freeBlocks.ncard + hit.card = k₁.blocks.freeBlocks.ncard
  freePages_eq : k.heap.freePages = k₁.heap.freePages

namespace DemandInv

variable {base : U64} {n : Nat} {m : PageMap} {k₁ k : KernelMem} {hit : Finset Nat} {obj : VmObject}

/-- A block that has been handed out is none of the first 32. -/
theorem block_ne_zero (h : DemandInv base n m k₁ hit obj k) {i : Nat} (hi : i ∈ hit) :
    obj.physicalBlocks i ≠ 0#32 := by
  intro h0
  have hfree := (h.block_taken i hi).1.1
  rw [h0, BitVec.toNat_ofNat] at hfree
  omega

/-- Before the first fault. -/
theorem start (hm : MapInv k m) (hw : WellFormed k m) (hpages : (obj.size >>> 12).toNat = n)
    (hanon : obj.isAnonymous = true)
    (hempty : ∀ i < n, obj.physicalBlocks i = 0#32 ∧
      word k m (pageNumber base + i) = some (setPageFrame pageUser 0#64)) :
    DemandInv base n m k ∅ obj k where
  toMapInv := hm
  wellFormed := hw
  pages := hpages
  anonymous := hanon
  hit_lt := by simp
  block_taken := by simp
  backed := by simp
  unbacked := fun i hi _ ↦ hempty i hi
  distinct_blocks := by simp
  outside := fun _ _ _ ↦ rfl
  ram_same := fun _ _ _ ↦ rfl
  translate_same := fun _ ↦ rfl
  freeBlocks_subset := subset_rfl
  freeBlocks_card := by simp
  freePages_eq := rfl

/-- The tables stay where they are. -/
theorem tableFrame_eq (h : DemandInv base n m k₁ hit obj k) (hm₁ : MapInv k₁ m)
    (htables : ∀ i < n, word k₁ m (pageNumber base + i) ≠ none)
    (hrange : ∀ i < n, pageNumber base + i < 2 ^ 27) {i : Nat} (hi : i < 512) (j : Nat) :
    tableFrame k m i j = tableFrame k₁ m i j := by
  have hram : k.ram (m.dirFrame i) = k₁.ram (m.dirFrame i) := by
    refine h.ram_same _ (hm₁.owned (.dir i) hi) fun t ht heq ↦ ?_
    have hlt := hrange t ht
    have hlive : m.Live (.table ((pageNumber base + t) / 2 ^ 18)
        ((pageNumber base + t) / 512 % 512)) :=
      ⟨by omega, Nat.mod_lt _ (by decide), pageTables_ne_of_word (htables t ht)⟩
    have hsame := hm₁.distinct (.dir i) _ hi hlive heq
    cases hsame
  rw [tableFrame, tableFrame, hram]

/-- The index of the page in `_physical_blocks`. -/
theorem toNat_blockIndex {offset : U64} (hn : 4096 * n ≤ 2 ^ 39) (hoff : offset.toNat < 4096 * n) :
    ((offset >>> 12).setWidth 32 : U32).toNat = offset.toNat / 4096 ∧ offset.toNat / 4096 < n := by
  rw [BitVec.toNat_setWidth, toNat_shiftRight_12]
  omega

/-- **A page that has been hit before** is mapped as it was. -/
theorem hit_again (phys : PhysOf) (h : DemandInv base n m k₁ hit obj k)
    (hrange : UserRange base.toNat (4096 * n)) (hbase : base.toNat % 4096 = 0) {offset : U64}
    (hoff : offset.toNat < 4096 * n) (hmem : offset.toNat / 4096 ∈ hit) (cr3 : U64) :
    obj.hit phys cr3 base offset m k = .ok (0, obj, m, k) := by
  obtain ⟨hpml4, hnum⟩ := hrange.page hbase hoff
  obtain ⟨hindex, hlt⟩ := toNat_blockIndex (by rw [UserRange] at hrange; omega) hoff
  have hword := h.backed _ hmem
  rw [← hnum] at hword
  have hcall := h.toMapInv.map_existing phys userFlags
    (obj.blockOf (offset.toNat / 4096)) hpml4 (by rw [hword]; exact Option.some_ne_none _)
  rw [wordRam_self hword] at hcall
  rw [VmObject.hit]
  simp only [hindex, h.pages]
  rw [if_neg (by omega), if_pos (h.block_ne_zero hmem), hcall]
  rfl


/-- **The first touch of a page** keeps the invariant. -/
theorem touch {blocks : PhysAllocator} {heap : KernelHeap} {i b : Nat}
    (h : DemandInv base n m k₁ hit obj k) (hm₁ : MapInv k₁ m)
    (htables : ∀ t < n, word k₁ m (pageNumber base + t) ≠ none)
    (hpage : ∀ t < n, pageNumber base + t < 2 ^ 27) (hi : i < n) (hnew : i ∉ hit)
    (hb : b ∈ k.blocks.freeBlocks) (hhint : HintInv blocks)
    (hblocks : blocks.freeBlocks = k.blocks.freeBlocks \ {b}) (hheap : HeapInv heap)
    (htranslate : ∀ v, heap.translate v = k.heap.translate v)
    (hfreePages : heap.freePages = k.heap.freePages) :
    DemandInv base n m k₁ (insert i hit) (obj.setBlock i ((blockAddr b >>> 12).setWidth 32))
      (withBlock k m (pageNumber base + i) b blocks heap) := by
  have hsome : word k m (pageNumber base + i) ≠ none := by
    rw [(h.unbacked i hi hnew).2]
    exact Option.some_ne_none _
  have hsub : blocks.freeBlocks ⊆ k.blocks.freeBlocks := by
    rw [hblocks]
    exact Set.sdiff_subset
  obtain ⟨hinv, hw, hword, hother, hram⟩ := h.toMapInv.withBlock h.wellFormed (hpage i hi) hsome hb
    hhint hsub hheap htranslate
  have hset := fun j hj ↦ obj.physicalBlocks_setBlock_of_ne (i := i) (j := j) hj
    ((blockAddr b >>> 12).setWidth 32)
  have hblocki : ((obj.setBlock i ((blockAddr b >>> 12).setWidth 32)).physicalBlocks i).toNat =
      b := by
    rw [VmObject.physicalBlocks_setBlock_self, VmObject.toNat_blockAddr_block (freeBlocks_lt hb)]
  have hne : ∀ j ∈ hit, j ≠ i := fun j hj heq ↦ hnew (heq ▸ hj)
  have hfresh : ∀ j ∈ hit, (obj.physicalBlocks j).toNat ≠ b := fun j hj heq ↦
    (h.block_taken j hj).2 (heq ▸ hb)
  constructor
  case toMapInv => exact hinv
  case wellFormed => exact hw
  case pages => exact h.pages
  case anonymous => exact h.anonymous
  case hit_lt =>
    intro j hj
    rcases Finset.mem_insert.mp hj with rfl | hj
    · exact hi
    · exact h.hit_lt j hj
  case block_taken =>
    intro j hj
    rcases Finset.mem_insert.mp hj with rfl | hj
    · rw [hblocki]
      exact ⟨h.freeBlocks_subset hb, fun hmem ↦ (hblocks.subset hmem).2 rfl⟩
    · rw [hset j (hne j hj)]
      exact ⟨(h.block_taken j hj).1, fun hmem ↦ (h.block_taken j hj).2 (hsub hmem)⟩
  case backed =>
    intro j hj
    rcases Finset.mem_insert.mp hj with rfl | hj
    · rw [VmObject.blockOf_eq, hblocki]
      exact hword
    · have hji := hne j hj
      rw [hother _ (hpage j (h.hit_lt j hj)) (by omega), h.backed j hj, VmObject.blockOf_eq,
        VmObject.blockOf_eq, hset j hji]
  case unbacked =>
    intro j hj hjhit
    rw [Finset.mem_insert, not_or] at hjhit
    rw [hother _ (hpage j hj) (by omega), hset j hjhit.1]
    exact h.unbacked j hj hjhit.2
  case distinct_blocks =>
    intro j hj j' hj' heq
    rcases Finset.mem_insert.mp hj with hji | hjhit
    · rcases Finset.mem_insert.mp hj' with hji' | hjhit'
      · rw [hji, hji']
      · rw [hji, hset j' (hne j' hjhit')] at heq
        exact absurd (heq ▸ hblocki) (hfresh j' hjhit')
    · rcases Finset.mem_insert.mp hj' with hji' | hjhit'
      · rw [hji', hset j (hne j hjhit)] at heq
        exact absurd (heq ▸ hblocki) (hfresh j hjhit)
      · rw [hset j (hne j hjhit), hset j' (hne j' hjhit')] at heq
        exact h.distinct_blocks j hjhit j' hjhit' heq
  case outside =>
    intro p hp hout
    rw [hother p hp (hout i hi)]
    exact h.outside p hp hout
  case ram_same =>
    intro f hf hout
    have hfb : f ≠ b := fun heq ↦ hf (heq ▸ h.freeBlocks_subset hb)
    have hpi := hpage i hi
    rw [hram f hfb (by rw [h.tableFrame_eq hm₁ htables hpage (by omega)]; exact hout i hi)]
    exact h.ram_same f hf hout
  case translate_same => exact fun v ↦ (htranslate v).trans (h.translate_same v)
  case freeBlocks_subset => exact hsub.trans h.freeBlocks_subset
  case freeBlocks_card =>
    have hcard := Set.ncard_sdiff_singleton_add_one hb (freeBlocks_finite k.blocks)
    rw [← hblocks] at hcard
    have hcard' := h.freeBlocks_card
    rw [Finset.card_insert_of_notMem hnew]
    show blocks.freeBlocks.ncard + (hit.card + 1) = _
    omega
  case freePages_eq => exact hfreePages.trans h.freePages_eq

/-- **The first fault in a page** gives it a block of zeros. -/
theorem hit_first (phys : PhysOf) (h : DemandInv base n m k₁ hit obj k) (hm₁ : MapInv k₁ m)
    (htables : ∀ t < n, word k₁ m (pageNumber base + t) ≠ none)
    (hrange : UserRange base.toNat (4096 * n)) (hbase : base.toNat % 4096 = 0) {offset : U64}
    (hoff : offset.toNat < 4096 * n) (hnew : offset.toNat / 4096 ∉ hit) (cr3 : U64)
    (hfree : k.blocks.freeBlocks.Nonempty)
    (hpages : cr3 ≠ m.pml4Phys → k.heap.freePages.Nonempty) :
    ∃ obj' k', obj.hit phys cr3 base offset m k = .ok (0, obj', m, k') ∧
      DemandInv base n m k₁ (insert (offset.toNat / 4096) hit) obj' k' ∧
      (∀ j ≠ offset.toNat / 4096, obj'.physicalBlocks j = obj.physicalBlocks j) ∧
      k'.ram (obj'.physicalBlocks (offset.toNat / 4096)).toNat = fun _ ↦ 0#64 := by
  obtain ⟨hpml4, hnum⟩ := hrange.page hbase hoff
  obtain ⟨hindex, hlt⟩ := toNat_blockIndex (by rw [UserRange] at hrange; omega) hoff
  obtain ⟨hzero, hword⟩ := h.unbacked _ hlt hnew
  have hsome : word k m (pageNumber (base + offset)) ≠ none := by
    rw [hnum, hword]
    exact Option.some_ne_none _
  rcases h.hint.allocate with ⟨b, blocks, hb, hcall, hhint, hbitmap, -⟩ | ⟨hempty, -⟩
  · have hblocks := freeBlocks_of_set hbitmap
    have hsub : blocks.freeBlocks ⊆ k.blocks.freeBlocks := by
      rw [hblocks]
      exact Set.sdiff_subset
    have hb20 := freeBlocks_lt hb.1
    have hb32 : 32 ≤ b := hb.1.1
    have hbound : b < 2 ^ 20 - 1 := hb.1.2.1.trans (by decide)
    have haddr := toNat_blockAddr (b := b) (by omega)
    have hm := h.toMapInv.of_blocks hhint hsub
    have hmap := hm.map_existing phys userFlags (blockAddr b) hpml4 hsome
    obtain ⟨-, hstep, hnew'⟩ := hm.step_of_wordRam (pageNumber_eq (base + offset)).1 hsome
      (setPageFrame userFlags (blockAddr b))
    have hw := hstep.wellFormed (h.wellFormed.of_ram hm.toShadows rfl rfl)
    obtain ⟨heap, hclear, hheap, htranslate, hfreePages⟩ :=
      hw.clearBlock_eq phys hstep.inv.heapInv hpml4 (by omega) hnew' cr3 hpages
    refine ⟨_, _, ?_, h.touch hm₁ htables (fun t ht ↦ (hrange.pageAt ht).2.2) hlt hnew hb.1 hhint
      hblocks hheap htranslate hfreePages, fun j hj ↦ obj.physicalBlocks_setBlock_of_ne hj _, ?_⟩
    · rw [VmObject.hit]
      simp only [hindex, h.pages]
      rw [if_neg (by omega), if_neg (by rw [hzero]; simp), if_neg (by rw [h.anonymous]; decide),
        hcall]
      simp only [Except.bind, bind, pure, Except.pure]
      rw [if_neg (by rw [physBlockMax]; bv_omega), if_neg (by bv_omega), hmap]
      simp only []
      rw [hclear]
      simp only []
      rw [hnum]
      rfl
    · rw [VmObject.physicalBlocks_setBlock_self, VmObject.toNat_blockAddr_block hb20]
      exact Function.update_self _ _ _
  · rw [hempty] at hfree
    exact absurd hfree Set.not_nonempty_empty

/-- There is memory left for one more page. -/
theorem freeBlocks_nonempty (h : DemandInv base n m k₁ hit obj k)
    (hcard : hit.card < k₁.blocks.freeBlocks.ncard) : k.blocks.freeBlocks.Nonempty := by
  have hsum := h.freeBlocks_card
  rw [← Set.ncard_pos (freeBlocks_finite k.blocks)]
  omega

/-- **One fault.** -/
theorem fault (phys : PhysOf) (h : DemandInv base n m k₁ hit obj k) (hm₁ : MapInv k₁ m)
    (htables : ∀ t < n, word k₁ m (pageNumber base + t) ≠ none)
    (hrange : UserRange base.toNat (4096 * n)) (hbase : base.toNat % 4096 = 0) {x : U64 × U64}
    (hin : (x.2 - base).toNat < 4096 * n)
    (hcard : (insert (faultPage base x.2) hit).card ≤ k₁.blocks.freeBlocks.ncard)
    (hpages : x.1 ≠ m.pml4Phys → k₁.heap.freePages.Nonempty) :
    ∃ obj' k', obj.hit phys x.1 base (x.2 - base) m k = .ok (0, obj', m, k') ∧
      DemandInv base n m k₁ (insert (faultPage base x.2) hit) obj' k' ∧
      (∀ i ∈ hit, obj'.physicalBlocks i = obj.physicalBlocks i) ∧
      (faultPage base x.2 ∉ hit →
        k'.ram (obj'.physicalBlocks (faultPage base x.2)).toNat = fun _ ↦ 0#64) := by
  by_cases hmem : faultPage base x.2 ∈ hit
  · refine ⟨obj, k, h.hit_again phys hrange hbase hin hmem x.1, ?_, fun _ _ ↦ rfl,
      fun hnew ↦ absurd hmem hnew⟩
    rw [Finset.insert_eq_of_mem hmem]
    exact h
  · rw [Finset.card_insert_of_notMem hmem] at hcard
    obtain ⟨obj', k', hcall, hinv, hkept, hzero⟩ := h.hit_first phys hm₁ htables hrange hbase hin
      hmem x.1 (h.freeBlocks_nonempty hcard) fun hcr3 ↦ h.freePages_eq ▸ hpages hcr3
    refine ⟨obj', k', hcall, hinv, fun i hi ↦ hkept i fun heq ↦ hmem ?_, fun _ ↦ hzero⟩
    rw [faultPage, ← heq]
    exact hi

/-- **A run of faults.** -/
theorem faults (phys : PhysOf) (hm₁ : MapInv k₁ m)
    (htables : ∀ t < n, word k₁ m (pageNumber base + t) ≠ none)
    (hrange : UserRange base.toNat (4096 * n)) (hbase : base.toNat % 4096 = 0)
    (faults : List (U64 × U64)) : ∀ {hit : Finset Nat} {obj : VmObject} {k : KernelMem},
      DemandInv base n m k₁ hit obj k → (∀ x ∈ faults, (x.2 - base).toNat < 4096 * n) →
      (hit ∪ hitPages base faults).card ≤ k₁.blocks.freeBlocks.ncard →
      (∀ x ∈ faults, x.1 ≠ m.pml4Phys → k₁.heap.freePages.Nonempty) →
      ∃ obj' k', VmObject.hits phys base faults obj m k =
          .ok (List.replicate faults.length 0, obj', m, k') ∧
        DemandInv base n m k₁ (hit ∪ hitPages base faults) obj' k' := by
  induction faults with
  | nil =>
    intro hit obj k h _ _ _
    exact ⟨obj, k, rfl, by simpa [hitPages] using h⟩
  | cons x faults ih =>
    intro hit obj k h hin hcard hpages
    have hunion : hit ∪ hitPages base (x :: faults) =
        insert (faultPage base x.2) hit ∪ hitPages base faults := by
      rw [hitPages_cons, Finset.union_insert, Finset.insert_union]
    rw [hunion] at hcard ⊢
    obtain ⟨obj', k', hcall, hinv, -, -⟩ := h.fault phys hm₁ htables hrange hbase
      (hin x List.mem_cons_self) ((Finset.card_le_card Finset.subset_union_left).trans hcard)
      (hpages x List.mem_cons_self)
    obtain ⟨obj'', k'', hrest, hinv'⟩ := ih hinv (fun y hy ↦ hin y (List.mem_cons_of_mem x hy))
      hcard fun y hy ↦ hpages y (List.mem_cons_of_mem x hy)
    refine ⟨obj'', k'', ?_, hinv'⟩
    rw [VmObject.hits, hcall]
    simp only [Except.bind, bind]
    rw [hrest]
    rfl

end DemandInv
/-! ## What a run of faults leaves -/

/-- Flags outside the frame bits are those the entry was made with. -/
theorem setPageFrame_and_userFlags (flags frame : U64) :
    setPageFrame flags frame &&& userFlags = flags &&& userFlags := by
  have hmask : userFlags = ~~~pageFrame &&& userFlags := by decide
  calc setPageFrame flags frame &&& userFlags
      = setPageFrame flags frame &&& ~~~pageFrame &&& userFlags := by
        rw [BitVec.and_assoc, ← hmask]
    _ = flags &&& ~~~pageFrame &&& userFlags := by rw [setPageFrame_and_not_pageFrame]
    _ = flags &&& userFlags := by rw [BitVec.and_assoc, ← hmask]

/-- **A region of which the pages `hit` have been touched**, as the hardware, the object and the
rest of the kernel see it.  `k₁` is the kernel's memory before the first fault. -/
structure Paged (base : U64) (n : Nat) (m : PageMap) (k₁ : KernelMem) (hit : Finset Nat)
    (obj : VmObject) (k : KernelMem) : Prop where
  /-- A page is there, for the user to write, exactly if it was hit, and then with its block. -/
  mapped : ∀ i < n, ∃ e, walk entryFormat k.ram m.pml4Frame (walkPath (pageAt base i)) = .last e ∧
    (e &&& userFlags = userFlags ↔ i ∈ hit) ∧ (present e = true ↔ i ∈ hit) ∧
    (i ∈ hit → frameOf e = (obj.physicalBlocks i).toNat)
  /-- No two pages share a block. -/
  distinct : ∀ i ∈ hit, ∀ j ∈ hit, obj.physicalBlocks i = obj.physicalBlocks j → i = j
  /-- Every other user page is as it was. -/
  outside : ∀ v, pml4Index v = 0 → (∀ i < n, walkPath v ≠ walkPath (pageAt base i)) →
    walk entryFormat k.ram m.pml4Frame (walkPath v) =
      walk entryFormat k₁.ram m.pml4Frame (walkPath v)
  /-- So is every address of the kernel heap. -/
  heap : ∀ v, k.heap.translate v = k₁.heap.translate v
  /-- And so is every walk, from any table, that passes through no block that was free and none of
  the tables of the region. -/
  elsewhere : ∀ root path, (∀ f ∈ visited entryFormat k₁.ram root path,
    f ∉ k₁.blocks.freeBlocks ∧ ∀ i < n, f ≠ regionTable k₁ m base i) →
      walk entryFormat k.ram root path = walk entryFormat k₁.ram root path
  /-- The object counts the pages. -/
  used : obj.usedPhysicalMemory.toNat = 4096 * hit.card

theorem freeBlocks_ncard_lt (a : PhysAllocator) : a.freeBlocks.ncard ≤ searchBound * 32 := by
  have hsub : a.freeBlocks ⊆ ↑(Finset.range (searchBound * 32)) := fun b hb ↦
    Finset.mem_coe.mpr (Finset.mem_range.mpr hb.2.1)
  have hcard := Set.ncard_le_ncard hsub (Finset.finite_toSet _)
  rwa [Set.ncard_coe_finset, Finset.card_range] at hcard

namespace DemandInv

variable {base : U64} {n : Nat} {m : PageMap} {k₁ k : KernelMem} {hit : Finset Nat} {obj : VmObject}

/-- The object has a block for each page that was hit. -/
theorem countP_eq (h : DemandInv base n m k₁ hit obj k) :
    (List.range n).countP (fun i ↦ obj.physicalBlocks i != 0#32) = hit.card := by
  have hhit : hit = {i ∈ Finset.range n | obj.physicalBlocks i ≠ 0#32} := by
    ext i
    rw [Finset.mem_filter, Finset.mem_range]
    constructor
    · exact fun hi ↦ ⟨h.hit_lt i hi, h.block_ne_zero hi⟩
    · rintro ⟨hi, hne⟩
      by_contra hnot
      exact hne (h.unbacked i hi hnot).1
  have hrange : (Finset.range n).val = ↑(List.range n) := rfl
  rw [hhit, Finset.card_def, Finset.filter_val, ← Multiset.countP_eq_card_filter, hrange,
    Multiset.coe_countP]
  exact List.countP_congr fun i _ ↦ by simp

/-- The invariant, as it shows. -/
theorem paged (h : DemandInv base n m k₁ hit obj k) (hw₁ : WellFormed k₁ m)
    (hrange : 0 < n → UserRange base.toNat (4096 * n)) : Paged base n m k₁ hit obj k := by
  constructor
  case mapped =>
    intro i hi
    obtain ⟨hpml4, hnum, hlt⟩ := (hrange (by omega)).pageAt hi
    rw [walkPath_eq hpml4, hnum, h.wellFormed.walk_word hlt]
    by_cases hmem : i ∈ hit
    · rw [h.backed i hmem]
      refine ⟨_, rfl, ?_, ?_, fun _ ↦ ?_⟩
      · rw [setPageFrame_and_userFlags]
        exact iff_of_true (by decide) hmem
      · rw [present_setPageFrame]
        exact iff_of_true (by decide) hmem
      · have hb := freeBlocks_lt (h.block_taken i hmem).1
        rw [frameOf_setPageFrame, VmObject.blockOf_eq, frameOf_blockAddr (by omega)]
    · rw [(h.unbacked i hi hmem).2]
      refine ⟨_, rfl, ?_, ?_, fun hin ↦ absurd hin hmem⟩
      · rw [setPageFrame_and_userFlags]
        exact iff_of_false (by decide) hmem
      · rw [present_setPageFrame]
        exact iff_of_false (by decide) hmem
  case distinct => exact h.distinct_blocks
  case outside =>
    intro v hv hout
    have hp := (pageNumber_eq v).1
    rw [walkPath_eq hv, h.wellFormed.walk_word hp, hw₁.walk_word hp,
      h.outside _ hp fun i hi heq ↦ ?_]
    obtain ⟨hpml4, hnum, -⟩ := (hrange (by omega)).pageAt hi
    exact hout i hi (by rw [walkPath_eq hv, walkPath_eq hpml4, hnum, heq])
  case heap => exact h.translate_same
  case elsewhere =>
    intro root path hvisited
    exact walk_congr fun f hf ↦ h.ram_same f (hvisited f hf).1 (hvisited f hf).2
  case used =>
    have hcard := h.freeBlocks_card
    have hbound := (freeBlocks_ncard_lt k₁.blocks).trans (show searchBound * 32 ≤ 524488 by decide)
    rw [VmObject.usedPhysicalMemory, if_neg (by rw [h.anonymous]; decide)]
    simp only [h.pages, h.countP_eq]
    rw [BitVec.toNat_setWidth, BitVec.toNat_shiftLeft, BitVec.toNat_ofNat, Nat.shiftLeft_eq]
    omega

end DemandInv
/-! ## Mapping the object -/

/-- **The words a loop of `map_allocated_blocks` writes.** -/
theorem mapBlocks_words {phys : PhysOf} {entry : Nat → Except Halt (U64 × U64)} {n : Nat} :
    ∀ {i : Nat} {virt : U64} {m m' : PageMap} {k k' : KernelMem}, MapInv k m →
      UserRange virt.toNat (4096 * n) → mapBlocks phys entry n i virt m k = .ok (m', k') →
      (∃ changed taken, Step k m changed taken k' m' ∧
        ∀ p ∈ changed, pageNumber virt ≤ p ∧ p < pageNumber virt + n) ∧
      ∀ t < n, ∃ x, entry (i + t) = .ok x ∧
        word k' m' (pageNumber virt + t) = some (setPageFrame x.1 x.2) := by
  induction n with
  | zero =>
    intro i virt m m' k k' hm _ hcall
    cases hcall
    exact ⟨⟨∅, [], .refl hm, fun p hp ↦ absurd hp (Set.notMem_empty p)⟩,
      fun t ht ↦ absurd ht (Nat.not_lt_zero t)⟩
  | succ n ih =>
    intro i virt m m' k k' hm hrange hcall
    obtain ⟨hnext, hnum⟩ := hrange.next
    rw [mapBlocks] at hcall
    obtain ⟨⟨flags, frame⟩, hentry, hcall⟩ := bind_eq_ok.mp hcall
    obtain ⟨⟨m₁, taken, k₁⟩, hpage, hcall⟩ := bind_eq_ok.mp hcall
    rw [mapVirtualMemory4k_one] at hpage
    rcases hm.mapPage phys flags frame hrange.pml4Index_eq with
      ⟨m₁', taken', k₁', hpage', hstep, hword⟩ | ⟨e, hpage', -⟩
    · cases hpage'.symm.trans hpage
      obtain ⟨⟨changed, taken', hstep', hsub⟩, hwords⟩ := ih hstep.inv hnext hcall
      have hfirst : pageNumber virt ∉ changed := by
        intro hmem
        obtain ⟨hlo, hhi⟩ := hsub _ hmem
        rw [hnum (by omega)] at hlo
        omega
      refine ⟨⟨_, _, hstep.trans hstep', ?_⟩, fun t ht ↦ ?_⟩
      · rintro p (rfl | hp)
        · omega
        · obtain ⟨hlo, hhi⟩ := hsub p hp
          have hpos : 0 < n := by omega
          rw [hnum hpos] at hlo hhi
          omega
      · cases t with
        | zero =>
          refine ⟨(flags, frame), hentry, SameWord.of_some ?_⟩
          rw [← hword]
          exact hstep'.same _ (pageNumber_eq virt).1 hfirst
        | succ t =>
          obtain ⟨x, hx, hwordx⟩ := hwords t (by omega)
          rw [hnum (by omega)] at hwordx
          refine ⟨x, ?_, ?_⟩
          · rw [← hx, show i + (t + 1) = i + 1 + t by omega]
          · rw [← hwordx, show pageNumber virt + (t + 1) = pageNumber virt + 1 + t by omega]
    · rw [hpage'] at hpage
      cases hpage

/-- The blocks of a new object. -/
theorem VmObject.anonymous_block {size : U64} (hsize : size.toNat % 4096 = 0)
    (hlt : size.toNat ≤ 2 ^ 39) (garbage : VmObject) {i : Nat} (hi : i < size.toNat / 4096) :
    (VmObject.anonymous size garbage).physicalBlocks i = 0#32 := by
  have hcount : (pageCount4K size).toNat = size.toNat / 4096 := by
    rw [pageCount4K, BitVec.toNat_setWidth, toNat_shiftRight_12, BitVec.toNat_add,
      BitVec.toNat_ofNat]
    omega
  exact if_pos (by omega)

/-- **A new object that was mapped**, before the first fault. -/
theorem DemandInv.of_mapped {phys : PhysOf} {k₀ k₁ : KernelMem} {m₀ m : PageMap}
    (hm : MapInv k₀ m₀) (hw : WellFormed k₀ m₀) {size base : U64} (garbage : VmObject)
    (hsize : size.toNat % 4096 = 0) (hbase : base.toNat % 4096 = 0)
    (hmap : (VmObject.anonymous size garbage).mapAllocatedBlocks phys base m₀ k₀ = .ok (m, k₁)) :
    DemandInv base (size.toNat / 4096) m k₁ ∅ (VmObject.anonymous size garbage) k₁ ∧
      (0 < size.toNat / 4096 → UserRange base.toNat (4096 * (size.toNat / 4096))) := by
  have hpages : ((VmObject.anonymous size garbage).size >>> 12).toNat = size.toNat / 4096 :=
    toNat_shiftRight_12 size
  have hloop : mapBlocks phys (VmObject.anonymous size garbage).physicalEntry (size.toNat / 4096) 0
      base m₀ k₀ = .ok (m, k₁) := by
    rw [← hpages]
    exact hmap
  rcases Nat.eq_zero_or_pos (size.toNat / 4096) with h0 | hpos
  · rw [h0] at hloop ⊢
    cases hloop
    exact ⟨.start hm hw (hpages.trans h0) rfl fun i hi ↦ absurd hi (Nat.not_lt_zero i),
      fun h ↦ absurd h (lt_irrefl 0)⟩
  · obtain ⟨-, hpml4⟩ := mapBlocks_ok hm hloop
    have hrange := userRange_of_pml4Index hpos hbase hpml4
    have hlt : size.toNat ≤ 2 ^ 39 := by
      rw [UserRange] at hrange
      omega
    obtain ⟨⟨changed, taken, hstep, -⟩, hwords⟩ := mapBlocks_words hm hrange hloop
    refine ⟨.start hstep.inv (hstep.wellFormed hw) hpages rfl fun i hi ↦ ?_, fun _ ↦ hrange⟩
    have hzero := VmObject.anonymous_block hsize hlt garbage hi
    obtain ⟨x, hx, hword⟩ := hwords i hi
    rw [Nat.zero_add, VmObject.physicalEntry, if_neg (not_not.mpr hzero)] at hx
    cases hx
    exact ⟨hzero, hword⟩

/-- **Demand paging.**  A new anonymous object is mapped in a page map, at a multiple of the page
size, and then its pages are touched: in any order, any number of times, with any page map loaded.
If there is a free block for each page that is touched, and a free page of the kernel heap should
another page map be loaded, then all the faults are handled, and before and after each of them the
region is `Paged`, with the pages touched so far.  No page changes its block, and a page that is
touched for the first time is all zero. -/
theorem demand_paging (phys : PhysOf) {k₀ k₁ : KernelMem} {m₀ m : PageMap} (hk : KernelInv k₀)
    (hw : WellFormed k₀ m₀) (howned : Owned k₀ m₀) (hstale : StaleFree k₀ m₀) {size base : U64}
    (garbage : VmObject) (hsize : size.toNat % 4096 = 0) (hbase : base.toNat % 4096 = 0)
    (hmap : (VmObject.anonymous size garbage).mapAllocatedBlocks phys base m₀ k₀ = .ok (m, k₁))
    {faults : List (U64 × U64)} (hin : ∀ x ∈ faults, (x.2 - base).toNat < size.toNat)
    (hblocks : (hitPages base faults).card ≤ k₁.blocks.freeBlocks.ncard)
    (hpages : ∀ x ∈ faults, x.1 ≠ m.pml4Phys → k₁.heap.freePages.Nonempty) :
    (∃ obj k, (VmObject.anonymous size garbage).hits phys base faults m k₁ =
        .ok (List.replicate faults.length 0, obj, m, k) ∧
      Paged base (size.toNat / 4096) m k₁ (hitPages base faults) obj k) ∧
    ∀ before x after, faults = before ++ x :: after → ∃ obj k obj' k',
      (VmObject.anonymous size garbage).hits phys base before m k₁ =
        .ok (List.replicate before.length 0, obj, m, k) ∧
      obj.hit phys x.1 base (x.2 - base) m k = .ok (0, obj', m, k') ∧
      Paged base (size.toNat / 4096) m k₁ (hitPages base before) obj k ∧
      Paged base (size.toNat / 4096) m k₁ (hitPages base (before ++ [x])) obj' k' ∧
      (∀ i ∈ hitPages base before, obj'.physicalBlocks i = obj.physicalBlocks i) ∧
      (faultPage base x.2 ∉ hitPages base before →
        k'.ram (obj'.physicalBlocks (faultPage base x.2)).toNat = fun _ ↦ 0#64) := by
  obtain ⟨hstart, hrange⟩ := DemandInv.of_mapped ⟨hk, hw.toShadows, howned, hstale⟩ hw garbage hsize
    hbase hmap
  have hm₁ := hstart.toMapInv
  have htables : ∀ t < size.toNat / 4096, word k₁ m (pageNumber base + t) ≠ none := by
    intro t ht
    rw [(hstart.unbacked t ht (Finset.notMem_empty t)).2]
    exact Option.some_ne_none _
  have hin' : ∀ x ∈ faults, (x.2 - base).toNat < 4096 * (size.toNat / 4096) := by
    intro x hx
    have := hin x hx
    omega
  -- what holds after any part of the faults
  have hrun : ∀ before after, faults = before ++ after → ∃ obj k,
      (VmObject.anonymous size garbage).hits phys base before m k₁ =
        .ok (List.replicate before.length 0, obj, m, k) ∧
      DemandInv base (size.toNat / 4096) m k₁ (hitPages base before) obj k := by
    rintro before after rfl
    cases before with
    | nil => exact ⟨_, _, rfl, hstart⟩
    | cons y before =>
      have hy := hin' y (by simp)
      have hsub : hitPages base (y :: before) ⊆ hitPages base (y :: before ++ after) := by
        rw [hitPages_append]
        exact Finset.subset_union_left
      have hcard := (Finset.card_le_card hsub).trans hblocks
      have hall := DemandInv.faults phys hm₁ htables (hrange (by omega)) hbase (y :: before) hstart
        (fun x hx ↦ hin' x (List.mem_append_left after hx))
        (by rw [Finset.empty_union]; exact hcard)
        fun x hx ↦ hpages x (List.mem_append_left after hx)
      rwa [Finset.empty_union] at hall
  constructor
  · obtain ⟨obj, k, hcall, hinv⟩ := hrun faults [] (List.append_nil faults).symm
    exact ⟨obj, k, hcall, hinv.paged hstart.wellFormed hrange⟩
  · intro before x after hsplit
    obtain ⟨obj, k, hcall, hinv⟩ := hrun before (x :: after) hsplit
    have hx : x ∈ faults := by simp [hsplit]
    have hlt := hin' x hx
    have hpages' : hitPages base (before ++ [x]) =
        insert (faultPage base x.2) (hitPages base before) := by
      simp [hitPages, Finset.union_comm]
    have hsub : insert (faultPage base x.2) (hitPages base before) ⊆ hitPages base faults := by
      rw [hsplit, hitPages_append, hitPages_cons, Finset.union_insert]
      exact Finset.insert_subset_insert _ Finset.subset_union_left
    obtain ⟨obj', k', hhit, hinv', hkept, hzero⟩ := hinv.fault phys hm₁ htables (hrange (by omega))
      hbase hlt ((Finset.card_le_card hsub).trans hblocks) (hpages x hx)
    refine ⟨obj, k, obj', k', hcall, hhit, hinv.paged hstart.wellFormed hrange, ?_, hkept, hzero⟩
    rw [hpages']
    exact hinv'.paged hstart.wellFormed hrange

/-- The second page of a map without tables, mapped for a new object of one page. -/
theorem mapAllocatedBlocks_first (phys : PhysOf) {k : KernelMem} {m : PageMap} (hm : MapInv k m)
    (hnull : m.pageTables 0 0 = 0#64) (hs : Supply k 1) (garbage : VmObject) :
    ∃ v k', (VmObject.anonymous 0x1000#64 garbage).mapAllocatedBlocks phys 0x1000#64 m k =
        .ok (m.setPageTable 0 0 v, k') ∧ MapInv k' (m.setPageTable 0 0 v) ∧ Extends k k' ∧
      k'.blocks.freeBlocks.ncard + 1 = k.blocks.freeBlocks.ncard ∧
      ∀ n, Supply k' n ↔ Supply k (n + 1) := by
  have hzero : (VmObject.anonymous 0x1000#64 garbage).physicalBlocks 0 = 0#32 :=
    VmObject.anonymous_block (by decide) (by decide) garbage (by decide)
  have hvirt : pml4Index 0x1000#64 = 0 := by decide
  rcases hm.mapPage_of_null phys pageUser 0#64 hvirt hnull with
    ⟨v, taken, k', hv, hpage, hm', hcard, hsupply⟩ | ⟨hdry, -⟩
  · have hext : Extends k k' := by
      rcases hm.mapPage phys pageUser 0#64 hvirt with ⟨m', taken', k'', hcall, hstep, -⟩ |
        ⟨e, he, -⟩
      · rw [hpage] at hcall
        cases hcall
        exact hstep.ext
      · rw [hpage] at he
        cases he
    refine ⟨v, k', ?_, hm', hext, hcard, hsupply⟩
    rw [VmObject.mapAllocatedBlocks]
    show mapBlocks phys (VmObject.anonymous 0x1000#64 garbage).physicalEntry
      ((0x1000#64 : U64) >>> 12).toNat 0 0x1000#64 m k = _
    rw [show ((0x1000#64 : U64) >>> 12).toNat = 1 by decide]
    simp only [mapBlocks, VmObject.physicalEntry, if_neg (not_not.mpr hzero),
      mapVirtualMemory4k_one, hpage, Except.bind, bind]
    rfl
  · exact absurd hs hdry

/-- An object of one page, in a new map of a machine of four megabytes: both faults are handled,
the first of them with another page map loaded. -/
theorem demand_paging_one_page : ∃ m₀ taken k₀ m k₁ obj k,
    createPageMap (fun _ ↦ 0#64) quietMalloc (fun _ ↦ 0#64) (fourMegMem fun _ _ ↦ 0#64) =
      .ok (m₀, taken, k₀) ∧
    (VmObject.anonymous 0x1000#64 emptyObject).mapAllocatedBlocks (fun _ ↦ 0#64) 0x1000#64 m₀ k₀ =
      .ok (m, k₁) ∧
    (VmObject.anonymous 0x1000#64 emptyObject).hits (fun _ ↦ 0#64) 0x1000#64
      [(0#64, 0x1234#64), (m.pml4Phys, 0x1FFF#64)] m k₁ = .ok ([0, 0], obj, m, k) ∧
    obj.usedPhysicalMemory.toNat = 4096 := by
  obtain ⟨m₀, taken, k₀, hcall, hs⟩ := fourMegMem_create fun _ _ ↦ 0#64
  have hc := (createPageMap_spec (fourMegMem_supply _).toKernelInv hcall).2
  have hw := hc.wellFormed fun i _ ↦ BitVec.zero_and
  obtain ⟨v, k₁, hmap, -, -, -, hsupply⟩ := mapAllocatedBlocks_first (fun _ ↦ 0#64) hc.inv
    (hc.no_tables 0 0) (hs.mono (by decide)) emptyObject
  let m := m₀.setPageTable 0 0 v
  have hs₁ : Supply k₁ 1 := (hsupply 1).mpr (hs.mono (by decide))
  have hfaults : hitPages 0x1000#64 [(0#64, 0x1234#64), (m.pml4Phys, 0x1FFF#64)] = {0} := by
    simp [hitPages, faultPage]
  have hinside : ∀ x ∈ [(0#64, 0x1234#64), (m.pml4Phys, 0x1FFF#64)],
      (x.2 - 0x1000#64).toNat < (0x1000#64 : U64).toNat := by
    simp
  obtain ⟨⟨obj, k, hhits, hpaged⟩, -⟩ := demand_paging (fun _ ↦ 0#64) hc.inv.toKernelInv hw
    hc.inv.owned hc.inv.stale emptyObject (by decide) (by decide) hmap hinside
    (by rw [hfaults]; exact hs₁.blocks)
    fun _ _ _ ↦ (Set.ncard_pos (freePages_finite _)).mp hs₁.pages
  have hused := hpaged.used
  rw [hfaults] at hused
  exact ⟨m₀, taken, k₀, m, k₁, obj, k, hcall, hmap, hhits, hused⟩

/-- **Without memory the kernel stops.**  The machine has one free block, which the page table of
the region takes; the first fault then ends in a panic. -/
theorem demand_paging_out_of_memory : KernelInv (emptyMapMem 0#64) ∧
    WellFormed (emptyMapMem 0#64) emptyMap ∧ Owned (emptyMapMem 0#64) emptyMap ∧
    StaleFree (emptyMapMem 0#64) emptyMap ∧ ∃ m k₁,
      (VmObject.anonymous 0x1000#64 emptyObject).mapAllocatedBlocks (fun _ ↦ 0#64) 0x1000#64
        emptyMap (emptyMapMem 0#64) = .ok (m, k₁) ∧
      (VmObject.anonymous 0x1000#64 emptyObject).hits (fun _ ↦ 0#64) 0x1000#64
        [(m.pml4Phys, 0x1000#64)] m k₁ = .error .outOfMemory := by
  have hk := emptyMap_kernelInv 0#64
  have hw := emptyMap_wellFormed (show present 0#64 = false by decide)
  have howned := emptyMap_owned 0#64
  refine ⟨hk, hw, howned, emptyMap_staleFree, ?_⟩
  obtain ⟨v, k₁, hmap, hm₁, -, hcard, -⟩ := mapAllocatedBlocks_first (fun _ ↦ 0#64)
    ⟨hk, hw.toShadows, howned, emptyMap_staleFree⟩ rfl (emptyMap_supply 0#64) emptyObject
  refine ⟨emptyMap.setPageTable 0 0 v, k₁, hmap, ?_⟩
  have hone : (emptyMapMem 0#64).blocks.freeBlocks.ncard = 1 := by
    show (boot [⟨0x20000, 0x1000⟩]).freeBlocks.ncard = 1
    rw [freeBlocks_oneBlock, Set.ncard_singleton]
  have hnone : k₁.blocks.freeBlocks = ∅ := by
    rw [← Set.ncard_eq_zero (freeBlocks_finite k₁.blocks)]
    omega
  have hzero : (VmObject.anonymous 0x1000#64 emptyObject).physicalBlocks 0 = 0#32 :=
    VmObject.anonymous_block (by decide) (by decide) emptyObject (by decide)
  rcases hm₁.hint.allocate with ⟨b, blocks, hb, -⟩ | ⟨-, hcall⟩
  · rw [hnone] at hb
    exact absurd hb.1 (Set.notMem_empty b)
  · have hindex : (((0x1000#64 - 0x1000#64 : U64) >>> 12).setWidth 32 : U32).toNat = 0 := by decide
    rw [VmObject.hits, VmObject.hit]
    simp only [hindex]
    have hpages : ((VmObject.anonymous 0x1000#64 emptyObject).size >>> 12).toNat = 1 :=
      toNat_shiftRight_12 0x1000#64
    have hanon : (VmObject.anonymous 0x1000#64 emptyObject).isAnonymous = true := rfl
    rw [hpages, if_neg (by decide), if_neg (not_not.mpr hzero), hanon, if_neg (by decide), hcall]
    rfl

end Borrrdex
