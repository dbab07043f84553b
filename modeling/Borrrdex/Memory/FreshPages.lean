import Borrrdex.Memory.PageMap

/-!
# Fresh pages

Everything `create_page_map` and `create_page_table` build, they build in pages that no one else
has: a heap page that was not present, mapped to a block that was free.  `FreshPage` is what one
such step does, and `Extends` what any number of them leaves alone: every address of the heap that
had a translation keeps it, and no block becomes free.  `Supply` counts how many more steps the two
allocators can make.
-/

set_option autoImplicit false

namespace Borrrdex

/-- The two ways an allocator runs dry. -/
def Halt.Exhausted (e : Halt) : Prop := e = .outOfMemory ∨ e = .outOfVirtualMemory

namespace KernelHeap

theorem translate_eq_some {h : KernelHeap} {virt : U64} {f : Nat} :
    h.translate virt = some f ↔
      pml4Index virt = 511 ∧ pdptIndex virt = 511 ∧ present (h.dir (pdeIndex virt)) = true ∧
        large (h.dir (pdeIndex virt)) = false ∧ present (h.entry (heapIndex virt)) = true ∧
        frameOf (h.entry (heapIndex virt)) = f := by
  rw [translate, entry_heapIndex]
  split
  · next hc => simp only [hc, true_and, Option.some.injEq]
  · next hc =>
    constructor
    · intro hf
      cases hf
    · rintro ⟨h1, h2, h3, h4, h5, -⟩
      exact absurd ⟨h1, h2, h3, h4, h5⟩ hc

/-- A translation depends on one entry and on the directory entry above it. -/
theorem translate_mono {h h' : KernelHeap} {virt : U64} {f : Nat}
    (hf : h.translate virt = some f)
    (hdir : ∀ d, present (h.dir d) = true → h'.dir d = h.dir d)
    (hentry : present (h.entry (heapIndex virt)) = true →
      h'.entry (heapIndex virt) = h.entry (heapIndex virt)) : h'.translate virt = some f := by
  obtain ⟨h1, h2, h3, h4, h5, h6⟩ := translate_eq_some.mp hf
  rw [translate_eq_some, hdir _ h3, hentry h5]
  exact ⟨h1, h2, h3, h4, h5, h6⟩

theorem pdeIndex_heapPage {p : Nat} (hp : p < heapPages) : pdeIndex (heapPage p) = p / 512 := by
  rw [← heapIndex_div, heapIndex_heapPage hp]

theorem pml4Index_heapPage {p : Nat} (hp : p < heapPages) : pml4Index (heapPage p) = 511 := by
  rw [pml4Index_eq, toNat_heapPage hp]
  rw [heapPages] at hp
  omega

theorem pdptIndex_heapPage {p : Nat} (hp : p < heapPages) : pdptIndex (heapPage p) = 511 := by
  rw [pdptIndex_eq, toNat_heapPage hp]
  rw [heapPages] at hp
  omega

theorem heapPage_ne_zero {p : Nat} (hp : p < heapPages) : heapPage p ≠ 0#64 := by
  intro h
  have hnat := toNat_heapPage hp
  rw [h, BitVec.toNat_ofNat] at hnat
  omega

/-- The pages of the heap that are not in use. -/
def freePages (h : KernelHeap) : Set Nat := {p | p < heapPages ∧ present (h.entry p) = false}

/-- Writing a present entry to a table that is in use keeps the heap's invariant. -/
theorem HeapInv.map_one {h : KernelHeap} (hinv : HeapInv h) {flags frame virt : U64}
    (hdir : present (h.dir (pdeIndex virt)) = true) :
    HeapInv (kernelMapVirtualMemory4k flags 1 frame virt h) := by
  refine ⟨fun p hp ↦ ?_, hinv.not_large⟩
  have hp' : present (h.dir (p / 512)) = false := hp
  rw [entry_map_one]
  split
  · next heq =>
    rw [heq, heapIndex_div, hdir] at hp'
    cases hp'
  · exact hinv.unused_empty p hp'

end KernelHeap

namespace KernelMem

open KernelHeap PhysAllocator

/-- Both allocators are in a state their own operations leave them in. -/
structure KernelInv (k : KernelMem) : Prop where
  hint : HintInv k.blocks
  heapInv : HeapInv k.heap

/-- `k'` comes from `k` by taking pages and blocks only. -/
structure Extends (k k' : KernelMem) : Prop extends KernelInv k' where
  freeBlocks_subset : k'.blocks.freeBlocks ⊆ k.blocks.freeBlocks
  translate_mono : ∀ virt f, k.heap.translate virt = some f → k'.heap.translate virt = some f

theorem KernelInv.extends_refl {k : KernelMem} (hk : KernelInv k) : Extends k k :=
  ⟨hk, subset_rfl, fun _ _ h ↦ h⟩

theorem Extends.trans {k k' k'' : KernelMem} (h : Extends k k') (h' : Extends k' k'') :
    Extends k k'' :=
  ⟨h'.toKernelInv, h'.freeBlocks_subset.trans h.freeBlocks_subset,
    fun virt f hf ↦ h'.translate_mono virt f (h.translate_mono virt f hf)⟩

/-- Stores change neither allocator. -/
theorem KernelInv.extends_ram {k : KernelMem} (hk : KernelInv k) (ram : Nat → Nat → U64) :
    Extends k { k with ram := ram } :=
  ⟨⟨hk.hint, hk.heapInv⟩, subset_rfl, fun _ _ h ↦ h⟩

/-! ## Accesses through a translation -/

theorem load_eq {k : KernelMem} {virt : U64} {f : Nat} (h : k.heap.translate virt = some f)
    (i : Nat) : k.load virt i = .ok (k.ram f i) := by
  rw [load, h]

theorem store_eq {k : KernelMem} {virt : U64} {f : Nat} (h : k.heap.translate virt = some f)
    (i : Nat) (word : U64) : k.store virt i word =
      .ok { k with ram := Function.update k.ram f (Function.update (k.ram f) i word) } := by
  rw [store, h]

theorem fillPage_eq {k : KernelMem} {virt : U64} {f : Nat} (h : k.heap.translate virt = some f)
    (words : Nat → U64) :
    k.fillPage virt words = .ok { k with ram := Function.update k.ram f words } := by
  rw [fillPage, h]

/-! ## One fresh page -/

/-- What `mapFreshPage` does: the page is mapped to the least free block. -/
structure FreshPage (k : KernelMem) (virt : U64) (b : Nat) (k' : KernelMem) : Prop
    extends Extends k k' where
  least : IsLeast k.blocks.freeBlocks b
  freeBlocks_eq : k'.blocks.freeBlocks = k.blocks.freeBlocks \ {b}
  virt_ne_zero : virt ≠ 0#64
  translate_eq : k'.heap.translate virt = some b
  page_was_free : heapIndex virt ∈ k.heap.freePages
  freePages_eq : k'.heap.freePages = k.heap.freePages \ {heapIndex virt}
  ram_eq : k'.ram = k.ram

/-- Free blocks lie below 4 GiB. -/
theorem freeBlocks_lt {a : PhysAllocator} {b : Nat} (hb : b ∈ a.freeBlocks) : b < 2 ^ 20 :=
  hb.2.1.trans (by decide)

theorem mapFreshPage_of_allocated {phys : PhysOf} {k : KernelMem} (hk : KernelInv k) {virt : U64}
    {heap : KernelHeap} (hheap : kernelAllocate4kPages phys 1 k.heap = .ok (virt, heap)) {b : Nat}
    (hb : IsLeast k.blocks.freeBlocks b) {blocks : PhysAllocator} (hhint : HintInv blocks)
    (hbitmap : blocks.physMemBitmap = Bitmap.set k.blocks.physMemBitmap b) :
    FreshPage k virt b
      { k with
        blocks := blocks
        heap := kernelMapVirtualMemory4k kernelFlags 1 (blockAddr b) virt heap } := by
  obtain ⟨start, ha⟩ := kernelAllocate4kPages_spec hk.heapInv le_rfl hheap
  have hin := ha.inside
  have hstart : start < heapPages := by omega
  have hvirt : virt = heapPage start := ha.addr_eq
  have hidx : heapIndex virt = start := by rw [hvirt, heapIndex_heapPage hstart]
  have hdir : present (heap.dir (pdeIndex virt)) = true := by
    rw [hvirt, pdeIndex_heapPage hstart]
    exact ha.in_use start le_rfl (by omega)
  have hfree := freeBlocks_of_set hbitmap
  have hinv := ha.heapInv hk.heapInv
  refine ⟨⟨⟨hhint, hinv.map_one hdir⟩, ?_, fun v f hf ↦ ?_⟩, hb, hfree,
    by rw [hvirt]; exact heapPage_ne_zero hstart, ?_, ?_, ?_, rfl⟩
  · rw [hfree]
    exact Set.sdiff_subset
  · refine translate_mono hf ha.dir_mono fun hused ↦ ?_
    have hne : heapIndex v ≠ start := by
      intro heq
      rw [heq, ha.was_free start le_rfl (by omega)] at hused
      cases hused
    rw [entry_map_one, hidx, if_neg hne, ha.entry_eq, if_neg (by omega)]
  · rw [translate_eq_some, entry_map_one, if_pos rfl, present_setPageFrame, frameOf_setPageFrame,
      frameOf_blockAddr ((freeBlocks_lt hb.1).trans (by decide))]
    refine ⟨by rw [hvirt]; exact pml4Index_heapPage hstart,
      by rw [hvirt]; exact pdptIndex_heapPage hstart, hdir, hinv.not_large _, by decide, rfl⟩
  · rw [hidx]
    exact ⟨hstart, ha.was_free start le_rfl (by omega)⟩
  · ext p
    simp only [freePages, Set.mem_ofPred_eq, Set.mem_sdiff, Set.mem_singleton_iff, entry_map_one]
    by_cases hp : p = heapIndex virt
    · rw [if_pos hp, present_setPageFrame]
      exact iff_of_false (fun h ↦ absurd h.2 (by decide)) fun h ↦ h.2 hp
    · rw [if_neg hp, ha.entry_eq, if_neg (by omega)]
      exact ⟨fun h ↦ ⟨h, hp⟩, fun h ↦ h.1⟩

/-- **One fresh page**, or one of the allocators has run dry. -/
theorem mapFreshPage_spec (phys : PhysOf) {k : KernelMem} (hk : KernelInv k) :
    (∃ virt b k', mapFreshPage phys k = .ok (virt, blockAddr b, k') ∧ FreshPage k virt b k') ∨
      ∃ e, mapFreshPage phys k = .error e ∧ e.Exhausted := by
  cases hheap : kernelAllocate4kPages phys 1 k.heap with
  | error e =>
    refine .inr ⟨e, ?_, .inr (kernelAllocate4kPages_error hheap)⟩
    rw [mapFreshPage, hheap]
    rfl
  | ok r =>
    obtain ⟨virt, heap⟩ := r
    rcases hk.hint.allocate with ⟨b, blocks, hb, hcall, hhint, hbitmap, -⟩ | ⟨-, hcall⟩
    · refine .inl ⟨virt, b, _, ?_, mapFreshPage_of_allocated hk hheap hb hhint hbitmap⟩
      rw [mapFreshPage, hheap]
      simp only [hcall, Except.bind, bind, pure, Except.pure]
    · refine .inr ⟨.outOfMemory, ?_, .inl rfl⟩
      rw [mapFreshPage, hheap]
      simp only [hcall, Except.bind, bind]

/-! ## Fresh pages inside `malloc` -/

/-- The loop of `liballoc_alloc` over pages of tables that are in use. -/
theorem backPages_inv {addr : U64} {n : Nat} : ∀ {i : Nat} {k k' : KernelMem} {taken : List U64},
    KernelInv k → (∀ j < n, present (k.heap.dir (pdeIndex (pageAt addr (i + j)))) = true) →
    backPages addr n i k = .ok (taken, k') →
    KernelInv k' ∧ k'.blocks.freeBlocks ⊆ k.blocks.freeBlocks ∧ k'.heap.dir = k.heap.dir ∧
      k'.ram = k.ram ∧ ∀ p, (∀ j < n, p ≠ heapIndex (pageAt addr (i + j))) →
        k'.heap.entry p = k.heap.entry p := by
  induction n with
  | zero =>
    intro i k k' taken hk _ hcall
    cases hcall
    exact ⟨hk, subset_rfl, rfl, rfl, fun _ _ ↦ rfl⟩
  | succ n ih =>
    intro i k k' taken hk hdir hcall
    rw [backPages] at hcall
    rcases hk.hint.allocate with ⟨b, blocks, hb, hblock, hhint, hbitmap, -⟩ | ⟨-, hblock⟩
    · rw [hblock] at hcall
      simp only [] at hcall
      split at hcall
      · cases hcall
      next taken' k'' hrest =>
      cases hcall
      have hk' : KernelInv { k with
          blocks := blocks
          heap := kernelMapVirtualMemory4k kernelFlags 1 (blockAddr b) (pageAt addr i) k.heap } :=
        ⟨hhint, hk.heapInv.map_one (hdir 0 (by omega))⟩
      obtain ⟨hinv, hfree, hdir', hram, hentry⟩ := ih hk' (fun j hj ↦ by
        rw [show i + 1 + j = i + (j + 1) by omega]
        exact hdir (j + 1) (by omega)) hrest
      refine ⟨hinv, hfree.trans ?_, hdir', hram, fun p hp ↦ ?_⟩
      · rw [freeBlocks_of_set hbitmap]
        exact Set.sdiff_subset
      · have hfirst := hp 0 (by omega)
        rw [Nat.add_zero] at hfirst
        rw [hentry p fun j hj ↦ by
          rw [show i + 1 + j = i + (j + 1) by omega]
          exact hp (j + 1) (by omega), entry_map_one, if_neg hfirst]
    · rw [hblock] at hcall
      cases hcall

theorem liballocAlloc_extends {phys : PhysOf} {k k' : KernelMem} (hk : KernelInv k) {n : Nat}
    (hn : 1 ≤ n) {addr : U64} {taken : List U64}
    (hcall : liballocAlloc phys n k = .ok (addr, taken, k')) : Extends k k' ∧ k'.ram = k.ram := by
  rw [liballocAlloc] at hcall
  split at hcall
  · cases hcall
  next addr' heap hheap =>
  split at hcall
  · cases hcall
  next taken' k'' hback =>
  cases hcall
  obtain ⟨start, ha⟩ := kernelAllocate4kPages_spec hk.heapInv hn hheap
  have hin := ha.inside
  have hpage : ∀ j < n, heapIndex (pageAt addr (0 + j)) = start + j := fun j hj ↦ by
    rw [Nat.zero_add, ha.addr_eq, pageAt_heapPage, heapIndex_heapPage (by omega)]
  obtain ⟨hinv, hfree, hdir, hram, hentry⟩ := backPages_inv
    (k := { k with heap := heap }) ⟨hk.hint, ha.heapInv hk.heapInv⟩ (fun j hj ↦ by
      show present (heap.dir (pdeIndex (pageAt addr (0 + j)))) = true
      rw [← heapIndex_div, hpage j hj]
      exact ha.in_use (start + j) (by omega) (by omega)) hback
  refine ⟨⟨hinv, hfree, fun v f hf ↦ translate_mono hf (fun d hd ↦ ?_) fun hused ↦ ?_⟩, hram⟩
  · rw [hdir]
    exact ha.dir_mono d hd
  · -- the page has a translation, so it is none of those the call takes
    have hold : ¬(start ≤ heapIndex v ∧ heapIndex v < start + n) := by
      rintro ⟨h1, h2⟩
      rw [ha.was_free _ h1 h2] at hused
      cases hused
    rw [hentry _ fun j hj ↦ by rw [hpage j hj]; omega, ha.entry_eq, if_neg hold]

/-- `malloc` takes pages and blocks only. -/
theorem mallocPages_extends {phys : PhysOf} {ns : List Nat} :
    ∀ {k k' : KernelMem}, KernelInv k → (∀ n ∈ ns, 1 ≤ n) → mallocPages phys ns k = .ok k' →
      Extends k k' ∧ k'.ram = k.ram := by
  induction ns with
  | nil =>
    intro k k' hk _ hcall
    cases hcall
    exact ⟨hk.extends_refl, rfl⟩
  | cons n ns ih =>
    intro k k' hk hpos hcall
    rw [mallocPages] at hcall
    obtain ⟨⟨addr, taken, k₁⟩, hfirst, hrest⟩ := bind_eq_ok.mp hcall
    obtain ⟨hext, hram⟩ := liballocAlloc_extends hk (hpos n List.mem_cons_self) hfirst
    obtain ⟨hext', hram'⟩ := ih hext.toKernelInv (fun n hn ↦ hpos n (List.mem_cons_of_mem _ hn))
      hrest
    exact ⟨hext.trans hext', hram'.trans hram⟩

/-! ## How many pages are left -/

/-- Both allocators can supply `n` more pages. -/
structure Supply (k : KernelMem) (n : Nat) : Prop extends KernelInv k where
  blocks : n ≤ k.blocks.freeBlocks.ncard
  pages : n ≤ k.heap.freePages.ncard

theorem freeBlocks_finite (a : PhysAllocator) : a.freeBlocks.Finite :=
  (Set.finite_lt_nat (searchBound * 32)).subset fun _ hb ↦ hb.2.1

theorem freePages_finite (h : KernelHeap) : h.freePages.Finite :=
  (Set.finite_lt_nat heapPages).subset fun _ hp ↦ hp.1

/-- A fresh page uses up one page and one block. -/
theorem FreshPage.supply_iff {k k' : KernelMem} {virt : U64} {b : Nat} (h : FreshPage k virt b k')
    (hk : KernelInv k) (n : Nat) : Supply k' n ↔ Supply k (n + 1) := by
  have hblocks := Set.ncard_sdiff_singleton_add_one h.least.1 (freeBlocks_finite k.blocks)
  have hpages := Set.ncard_sdiff_singleton_add_one h.page_was_free (freePages_finite k.heap)
  rw [← h.freeBlocks_eq] at hblocks
  rw [← h.freePages_eq] at hpages
  constructor
  · exact fun hs ↦ ⟨hk, by have := hs.blocks; omega, by have := hs.pages; omega⟩
  · exact fun hs ↦ ⟨h.toKernelInv, by have := hs.blocks; omega, by have := hs.pages; omega⟩

/-- **The supply of pages**: while there is one, a fresh page is found, and there is one less. -/
theorem Supply.mapFreshPage (phys : PhysOf) {k : KernelMem} {n : Nat} (hs : Supply k (n + 1)) :
    ∃ virt b k', KernelMem.mapFreshPage phys k = .ok (virt, blockAddr b, k') ∧
      FreshPage k virt b k' ∧ Supply k' n := by
  have hblocks := hs.blocks
  have hpages := hs.pages
  obtain ⟨p, hp, hfree⟩ := (Set.ncard_pos (freePages_finite k.heap)).mp (by omega)
  obtain ⟨⟨virt, heap⟩, hheap⟩ := kernelAllocate4kPages_one phys hs.heapInv hp hfree
  rcases hs.hint.allocate with ⟨b, blocks, hb, hcall, hhint, hbitmap, -⟩ | ⟨hempty, -⟩
  · have hfresh := mapFreshPage_of_allocated hs.toKernelInv hheap hb hhint hbitmap
    refine ⟨virt, b, _, ?_, hfresh, (hfresh.supply_iff hs.toKernelInv n).mpr hs⟩
    rw [KernelMem.mapFreshPage, hheap]
    simp only [hcall, Except.bind, bind, pure, Except.pure]
  · rw [hempty, Set.ncard_empty] at hblocks
    omega

/-- Stores use nothing up. -/
theorem Supply.of_ram {k : KernelMem} {n : Nat} (hs : Supply k n) (ram : Nat → Nat → U64) :
    Supply { k with ram := ram } n :=
  ⟨⟨hs.hint, hs.heapInv⟩, hs.blocks, hs.pages⟩

end KernelMem
end Borrrdex
