import Mathlib.Order.BourbakiWitt
import Mathlib.Order.CompletePartialOrder
import Borrrdex.Memory.TableSupply

/-!
# What the operations on page maps touch

The tables of a page map are pages that were free before, and no operation on it writes anything
but its own tables and blocks that are free.  `WritesWithin` says so for any step of the kernel, and
`Grows` for the steps on one map, whose tables become more; a step that keeps to the
blocks of one map leaves every other map as it is (`MapInv.of_writesWithin`).

On the kernel's own heap all of them do the same two things, over and over: they take pages, and
map them.  So what these two keep, all of them keep, which is `HeapRule`.
-/

set_option autoImplicit false

namespace Borrrdex

open KernelMem KernelHeap PhysAllocator

namespace KernelHeap

/-! ## What an allocation writes -/

/-- A heap with other pages taken and other tables brought into use, and nothing else changed. -/
structure Marks (phys : PhysOf) (h h' : KernelHeap) : Prop where
  entry_eq : ∀ p, h'.entry p = h.entry p ∨ h'.entry p = tableWriteable ||| tablePresent
  dir_eq : ∀ d, h'.dir d = h.dir d ∨ frameOf (h'.dir d) = frameOf (phys d)

variable {phys : PhysOf} {h h' h'' : KernelHeap}

theorem Marks.refl (phys : PhysOf) (h : KernelHeap) : Marks phys h h :=
  ⟨fun _ ↦ .inl rfl, fun _ ↦ .inl rfl⟩

theorem Marks.trans (hm : Marks phys h h') (hm' : Marks phys h' h'') : Marks phys h h'' := by
  refine ⟨fun p ↦ ?_, fun d ↦ ?_⟩
  · rcases hm'.entry_eq p with heq | heq
    · rw [heq]
      exact hm.entry_eq p
    · exact .inr heq
  · rcases hm'.dir_eq d with heq | heq
    · rw [heq]
      exact hm.dir_eq d
    · exact .inr heq

/-- One page is marked. -/
theorem marks_setEntry (phys : PhysOf) (h : KernelHeap) (i : Nat) {j : Nat} (hj : j < 512) :
    Marks phys h (h.setEntry i j (tableWriteable ||| tablePresent)) := by
  refine ⟨fun p ↦ ?_, fun _ ↦ .inl rfl⟩
  rw [entry_setEntry h hj]
  split
  · exact .inr rfl
  · exact .inl rfl

/-- One table is brought into use. -/
theorem marks_openTable (phys : PhysOf) (h : KernelHeap) (i : Nat) :
    Marks phys h (h.openTable phys i) := by
  refine ⟨fun _ ↦ .inl rfl, fun d ↦ ?_⟩
  rw [dir_openTable]
  split
  · next hd =>
    rw [hd, opened, frameOf_or (by decide), frameOf_setPageFrame]
    exact .inr rfl
  · exact .inl rfl

theorem marks_markPages (phys : PhysOf) : ∀ (n d o : Nat) (h : KernelHeap),
    Marks phys h (markPages n d o h)
  | 0, _, _, h => .refl phys h
  | n + 1, d, o, h => by
    rw [markPages]
    split
    · exact (marks_setEntry phys h (d + 1) (by decide)).trans (marks_markPages phys n _ _ _)
    · next ho =>
      exact (marks_setEntry phys h d (Nat.lt_of_not_le ho)).trans (marks_markPages phys n _ _ _)

theorem marks_markNewPages (phys : PhysOf) : ∀ (n d o : Nat) (h : KernelHeap),
    Marks phys h (markNewPages phys n d o h)
  | 0, _, _, h => .refl phys h
  | n + 1, d, o, h => by
    rw [markNewPages]
    split
    · exact ((marks_openTable phys h (d + 1)).trans
        (marks_setEntry phys _ (d + 1) (by decide))).trans
        (marks_markNewPages phys n _ _ _)
    · next ho =>
      exact (marks_setEntry phys h d (Nat.lt_of_not_le ho)).trans
        (marks_markNewPages phys n _ _ _)

/-- **What `kernel_allocate_4k_pages` writes**, whatever it is asked for. -/
theorem kernelAllocate4kPages_marks {n : Nat} {addr : U64}
    (hcall : kernelAllocate4kPages phys n h = .ok (addr, h')) : Marks phys h h' := by
  rw [kernelAllocate4kPages] at hcall
  split at hcall
  · cases hcall
    exact marks_markPages phys _ _ _ _
  split at hcall
  · cases hcall
    exact (marks_openTable phys h _).trans (marks_markNewPages phys _ _ _ _)
  · cases hcall

/-- Every table in use is the one its directory entry frames. -/
def DirFrames (phys : PhysOf) (h : KernelHeap) : Prop :=
  ∀ d, present (h.dir d) = true → frameOf (h.dir d) = frameOf (phys d)

theorem Marks.dirFrames (hm : Marks phys h h') (hd : DirFrames phys h) : DirFrames phys h' := by
  intro d hp
  rcases hm.dir_eq d with heq | heq
  · rw [heq] at hp ⊢
    exact hd d hp
  · exact heq

theorem Marks.freePages_subset (hm : Marks phys h h') : h'.freePages ⊆ h.freePages := by
  rintro p ⟨hp, hfree⟩
  refine ⟨hp, ?_⟩
  rcases hm.entry_eq p with heq | heq
  · rwa [heq] at hfree
  · rw [heq] at hfree
    exact absurd hfree (by decide)

/-! ## Allocating nothing -/

theorem firstPassTable_zero (h : KernelHeap) : firstPassTable h 0 = firstPassTable h 1 := by
  have hpage : firstPassPage h 0 = firstPassPage h 1 := by
    funext i j c
    rw [firstPassPage, firstPassPage, if_pos (Nat.zero_le _), if_pos (Nat.le_add_left 1 _)]
  funext i c
  rw [firstPassTable, firstPassTable, hpage]

theorem secondPassTable_zero (h : KernelHeap) : secondPassTable h 0 = secondPassTable h 1 := by
  funext i c
  have hone : 1 ≤ c.counter + 512 := by omega
  rw [secondPassTable, secondPassTable, if_pos (Nat.zero_le _), if_pos hone]

/-- Asked for no page at all, `kernel_allocate_4k_pages` takes one, or brings a table into use and
takes none. -/
theorem kernelAllocate4kPages_zero {addr : U64}
    (hcall : kernelAllocate4kPages phys 0 h = .ok (addr, h')) :
    kernelAllocate4kPages phys 1 h = .ok (addr, h') ∨
      ∃ d, present (h.dir d) = false ∧ h' = h.openTable phys d := by
  rw [kernelAllocate4kPages, firstPassTable_zero, secondPassTable_zero] at hcall
  rw [kernelAllocate4kPages]
  split at hcall
  · exact .inl hcall
  · split at hcall
    · next c hc =>
      cases hcall
      rcases secondPass_spec h le_rfl with ⟨c', hc', hfound⟩ | ⟨c', hc'⟩
      · rw [hc] at hc'
        cases hc'
        exact .inr ⟨c.pageDirOffset, hfound.unused _ le_rfl (by omega), rfl⟩
      · rw [hc] at hc'
        cases hc'
    · cases hcall

/-- An open table is one more in use. -/
theorem HeapInv.openTable (hinv : HeapInv h) (d : Nat) : HeapInv (h.openTable phys d) := by
  refine ⟨fun p hp ↦ ?_, fun e ↦ ?_⟩
  · rw [dir_openTable] at hp
    split at hp
    · rw [present_opened] at hp
      cases hp
    · exact hinv.unused_empty p hp
  · rw [dir_openTable]
    split
    · rw [large_opened]
      exact hinv.not_large d
    · exact hinv.not_large e

end KernelHeap

/-! ## What all operations do to the heap -/

theorem fillPage_ok {k k' : KernelMem} {virt : U64} {words : Nat → U64}
    (h : k.fillPage virt words = .ok k') : ∃ f, k.heap.translate virt = some f ∧
      k' = { k with ram := Function.update k.ram f words } := by
  rw [fillPage] at h
  split at h
  · cases h
  next f hf =>
  cases h
  exact ⟨f, hf, rfl⟩

/-- **The rule for the heap**: what taking pages and mapping one keeps. -/
structure HeapRule (phys : PhysOf) (P : KernelHeap → Prop) : Prop where
  allocate : ∀ {n : Nat} {h h' : KernelHeap} {addr : U64}, P h →
    kernelAllocate4kPages phys n h = .ok (addr, h') → P h'
  map : ∀ {h : KernelHeap} (frame virt : U64), P h →
    P (kernelMapVirtualMemory4k kernelFlags 1 frame virt h)

/-- No page comes free. -/
theorem heapRule_freePages (phys : PhysOf) (pages : Set Nat) :
    HeapRule phys fun h ↦ h.freePages ⊆ pages := by
  refine ⟨fun hsub hcall ↦ (kernelAllocate4kPages_marks hcall).freePages_subset.trans hsub,
    fun frame virt hsub ↦ Set.Subset.trans ?_ hsub⟩
  rintro p ⟨hp, hfree⟩
  refine ⟨hp, ?_⟩
  rw [entry_map_one] at hfree
  split at hfree
  · rw [present_setPageFrame] at hfree
    exact absurd hfree (by decide)
  · exact hfree

/-- No table goes out of use, or moves. -/
theorem heapRule_dirFrames (phys : PhysOf) : HeapRule phys (DirFrames phys) :=
  ⟨fun hd hcall ↦ (kernelAllocate4kPages_marks hcall).dirFrames hd, fun _ _ hd ↦ hd⟩

namespace HeapRule

variable {phys : PhysOf} {P : KernelHeap → Prop} (hP : HeapRule phys P) {k k' : KernelMem}
include hP

theorem mapFreshPage (hk : P k.heap) {virt frame : U64}
    (hcall : mapFreshPage phys k = .ok (virt, frame, k')) : P k'.heap := by
  rw [KernelMem.mapFreshPage] at hcall
  obtain ⟨⟨virt, heap⟩, hheap, hcall⟩ := bind_eq_ok.mp hcall
  obtain ⟨⟨frame, blocks⟩, -, hcall⟩ := bind_eq_ok.mp hcall
  cases hcall
  exact hP.map _ _ (hP.allocate hk hheap)

theorem backPages {addr : U64} : ∀ {n i : Nat} {k k' : KernelMem} {taken : List U64}, P k.heap →
    backPages addr n i k = .ok (taken, k') → P k'.heap
  | 0, _, k, k', _, hk, hcall => by
    cases hcall
    exact hk
  | n + 1, i, k, k', _, hk, hcall => by
    rw [KernelMem.backPages] at hcall
    split at hcall
    · cases hcall
    split at hcall
    · cases hcall
    next hrest =>
    cases hcall
    exact backPages (hP.map _ _ hk) hrest

theorem mallocPages : ∀ {ns : List Nat} {k k' : KernelMem}, P k.heap →
    mallocPages phys ns k = .ok k' → P k'.heap
  | [], k, k', hk, hcall => by
    cases hcall
    exact hk
  | n :: ns, k, k', hk, hcall => by
    rw [KernelMem.mallocPages] at hcall
    obtain ⟨⟨addr, taken, k₁⟩, hfirst, hrest⟩ := bind_eq_ok.mp hcall
    refine mallocPages ?_ hrest
    rw [liballocAlloc] at hfirst
    split at hfirst
    · cases hfirst
    next heap hheap =>
    split at hfirst
    · cases hfirst
    next hback =>
    cases hfirst
    exact hP.backPages (hP.allocate hk hheap) hback

theorem createDir {mal : Malloc} {i : Nat} {m m' : PageMap} {taken : List U64} (hk : P k.heap)
    (hcall : PageMap.createDir phys mal i m k = .ok (m', taken, k')) : P k'.heap := by
  rw [PageMap.createDir] at hcall
  obtain ⟨⟨dir, dirPhys, k₁⟩, hpage, hcall⟩ := bind_eq_ok.mp hcall
  obtain ⟨k₂, hmal, hcall⟩ := bind_eq_ok.mp hcall
  obtain ⟨e, -, hcall⟩ := bind_eq_ok.mp hcall
  obtain ⟨k₃, hstore, hcall⟩ := bind_eq_ok.mp hcall
  obtain ⟨k₄, hfill, hcall⟩ := bind_eq_ok.mp hcall
  cases hcall
  obtain ⟨f, -, rfl⟩ := PageMap.store_ok hstore
  obtain ⟨f', -, rfl⟩ := fillPage_ok hfill
  show P k₂.heap
  exact hP.mallocPages (hP.mapFreshPage hk hpage) hmal

theorem createDirs {mal : Malloc} : ∀ {n i : Nat} {k k' : KernelMem} {m m' : PageMap}
    {taken : List U64}, P k.heap →
      PageMap.createDirs phys mal n i m k = .ok (m', taken, k') → P k'.heap
  | 0, _, k, k', m, m', _, hk, hcall => by
    cases hcall
    exact hk
  | n + 1, i, k, k', m, m', _, hk, hcall => by
    rw [PageMap.createDirs] at hcall
    obtain ⟨⟨m₁, taken₁, k₁⟩, hdir, hcall⟩ := bind_eq_ok.mp hcall
    obtain ⟨⟨m₂, taken₂, k₂⟩, hdirs, hcall⟩ := bind_eq_ok.mp hcall
    cases hcall
    exact createDirs (hP.createDir hk hdir) hdirs

theorem createPageMap {mal : Malloc} {kernelPml4 : Nat → U64} {m : PageMap} {taken : List U64}
    (hk : P k.heap) (hcall : PageMap.createPageMap phys mal kernelPml4 k = .ok (m, taken, k')) :
    P k'.heap := by
  rw [PageMap.createPageMap] at hcall
  obtain ⟨⟨m₁, taken₁, k₁⟩, hroot, hcall⟩ := bind_eq_ok.mp hcall
  obtain ⟨⟨m₂, taken₂, k₂⟩, hdirs, hcall⟩ := bind_eq_ok.mp hcall
  obtain ⟨k₃, hstore, hcall⟩ := bind_eq_ok.mp hcall
  cases hcall
  obtain ⟨f, -, rfl⟩ := PageMap.store_ok hstore
  show P k₂.heap
  refine hP.createDirs ?_ hdirs
  rw [PageMap.createRoot] at hroot
  obtain ⟨r₀, hmal, hroot⟩ := bind_eq_ok.mp hroot
  obtain ⟨⟨pdpt, pdptPhys, r₁⟩, h₁, hroot⟩ := bind_eq_ok.mp hroot
  obtain ⟨⟨virt₂, frame₂, r₂⟩, h₂, hroot⟩ := bind_eq_ok.mp hroot
  obtain ⟨⟨virt₃, frame₃, r₃⟩, h₃, hroot⟩ := bind_eq_ok.mp hroot
  obtain ⟨⟨virt₄, frame₄, r₄⟩, h₄, hroot⟩ := bind_eq_ok.mp hroot
  obtain ⟨⟨pml4, pml4Phys, r₅⟩, h₅, hroot⟩ := bind_eq_ok.mp hroot
  obtain ⟨r₆, hfill, hroot⟩ := bind_eq_ok.mp hroot
  cases hroot
  obtain ⟨f', -, rfl⟩ := fillPage_ok hfill
  have hk₁ := hP.mapFreshPage (hP.mallocPages hk hmal) h₁
  have hk₃ := hP.mapFreshPage (hP.mapFreshPage hk₁ h₂) h₃
  show P r₅.heap
  exact hP.mapFreshPage (hP.mapFreshPage hk₃ h₄) h₅

theorem mapPage {flags frame virt : U64} {m m' : PageMap} {taken : List U64} (hk : P k.heap)
    (hcall : PageMap.mapPage phys flags frame virt m k = .ok (m', taken, k')) : P k'.heap := by
  rw [PageMap.mapPage] at hcall
  split at hcall
  · cases hcall
  split at hcall
  · cases hcall
  obtain ⟨⟨m₁, taken₁, k₁⟩, hensure, hcall⟩ := bind_eq_ok.mp hcall
  obtain ⟨k₂, hstore, hcall⟩ := bind_eq_ok.mp hcall
  cases hcall
  obtain ⟨f, -, rfl⟩ := PageMap.store_ok hstore
  show P k₁.heap
  rw [PageMap.ensurePageTable] at hensure
  obtain ⟨e, -, hensure⟩ := bind_eq_ok.mp hensure
  split at hensure
  · cases hensure
    exact hk
  rw [PageMap.createPageTable, allocatePageTable] at hensure
  obtain ⟨⟨table, tablePhys, r₁⟩, halloc, hensure⟩ := bind_eq_ok.mp hensure
  obtain ⟨⟨table', tablePhys', r₂⟩, hpage, halloc⟩ := bind_eq_ok.mp halloc
  obtain ⟨r₃, hfill, halloc⟩ := bind_eq_ok.mp halloc
  obtain ⟨e', -, hensure⟩ := bind_eq_ok.mp hensure
  obtain ⟨r₄, hstore, hensure⟩ := bind_eq_ok.mp hensure
  cases hensure
  obtain ⟨f', -, rfl⟩ := PageMap.store_ok hstore
  cases halloc
  obtain ⟨f'', -, rfl⟩ := fillPage_ok hfill
  show P r₂.heap
  exact hP.mapFreshPage hk hpage

theorem mapVirtualMemory4k {flags : U64} : ∀ {n : Nat} {frame virt : U64} {k k' : KernelMem}
    {m m' : PageMap} {taken : List U64}, P k.heap →
      PageMap.mapVirtualMemory4k phys flags n frame virt m k = .ok (m', taken, k') → P k'.heap
  | 0, _, _, k, k', m, m', _, hk, hcall => by
    cases hcall
    exact hk
  | n + 1, frame, virt, k, k', m, m', _, hk, hcall => by
    rw [PageMap.mapVirtualMemory4k] at hcall
    obtain ⟨⟨m₁, taken₁, k₁⟩, hpage, hcall⟩ := bind_eq_ok.mp hcall
    obtain ⟨⟨m₂, taken₂, k₂⟩, hpages, hcall⟩ := bind_eq_ok.mp hcall
    cases hcall
    exact mapVirtualMemory4k (hP.mapPage hk hpage) hpages

end HeapRule

/-! ## What a step writes -/

/-- A step of the kernel that takes pages and blocks only, and writes only to blocks that are free
and to those in `own`. -/
structure WritesWithin (own : Set Nat) (k k' : KernelMem) : Prop extends Extends k k' where
  ram_frame : ∀ f, f ∉ own → f ∉ k.blocks.freeBlocks → k'.ram f = k.ram f

/-- Two steps in a row, when the second may write what the first has taken. -/
theorem WritesWithin.trans {own own' : Set Nat} {k k' k'' : KernelMem} (h : WritesWithin own k k')
    (h' : WritesWithin own' k' k'') (hsub : own' ⊆ own ∪ k.blocks.freeBlocks) :
    WritesWithin own k k'' := by
  refine ⟨h.toExtends.trans h'.toExtends, fun f hf hfree ↦ ?_⟩
  have hf' : f ∉ own' := fun hmem ↦ (hsub hmem).elim hf hfree
  rw [h'.ram_frame f hf' fun hmem ↦ hfree (h.freeBlocks_subset hmem), h.ram_frame f hf hfree]

namespace PageMap

/-- The blocks of the tables of a map. -/
def frames (k : KernelMem) (m : PageMap) : Set Nat := {f | ∃ x, m.Live x ∧ nodeFrame k m x = f}

/-- The heap pages its directories and tables are mapped at. -/
def pages (m : PageMap) : Set Nat :=
  {p | (∃ i < 512, p = heapIndex (m.pageDirs i)) ∨
    ∃ i < 512, ∃ j < 512, m.pageTables i j ≠ 0#64 ∧ p = heapIndex (m.pageTables i j)}

variable {k k' k'' : KernelMem} {m m' m'' : PageMap}

theorem frames_congr
    (hram : ∀ i < 512, ∀ j < 512, k'.ram (m.dirFrame i) j = k.ram (m.dirFrame i) j) :
    frames k' m = frames k m := by
  have hnode : ∀ x, m.Live x → nodeFrame k' m x = nodeFrame k m x := by
    intro x hx
    cases x with
    | pml4 => rfl
    | pdpt => rfl
    | dir i => rfl
    | table i j => exact congrArg frameOf (hram i hx.1 j hx.2.1)
  ext f
  constructor
  · rintro ⟨x, hx, rfl⟩
    exact ⟨x, hx, (hnode x hx).symm⟩
  · rintro ⟨x, hx, rfl⟩
    exact ⟨x, hx, hnode x hx⟩

/-- No block of a map is free. -/
theorem MapInv.frames_disjoint_free (hm : MapInv k m) :
    Disjoint (frames k m) k.blocks.freeBlocks := by
  refine Set.disjoint_left.mpr ?_
  rintro f ⟨x, hx, rfl⟩
  exact hm.owned x hx

/-- No page of a map is free. -/
theorem Shadows.pages_disjoint_free (hm : Shadows k m) : Disjoint m.pages k.heap.freePages := by
  refine Set.disjoint_left.mpr ?_
  rintro p (⟨i, hi, rfl⟩ | ⟨i, hi, j, hj, ht, rfl⟩) ⟨-, hfree⟩
  · have hused := (translate_eq_some.mp (hm.dir_ptr i hi)).2.2.2.2.1
    rw [hused] at hfree
    cases hfree
  · have hused := (translate_eq_some.mp (hm.table_ptr i hi j hj ht)).2.2.2.2.1
    rw [hused] at hfree
    cases hfree

/-- **What keeps to other blocks leaves a map as it is.** -/
theorem MapInv.of_writesWithin (hm : MapInv k m) {own : Set Nat} (hc : WritesWithin own k k')
    (hdisj : Disjoint (frames k m) own) :
    MapInv k' m ∧ frames k' m = frames k m ∧ ∀ f ∈ frames k m, k'.ram f = k.ram f := by
  have hram : ∀ f ∈ frames k m, k'.ram f = k.ram f := fun f hf ↦
    hc.ram_frame f (Set.disjoint_left.mp hdisj hf)
      (Set.disjoint_left.mp hm.frames_disjoint_free hf)
  have hdir : ∀ i < 512, ∀ j < 512, k'.ram (m.dirFrame i) j = k.ram (m.dirFrame i) j :=
    fun i hi j _ ↦ congrFun (hram _ ⟨.dir i, hi, rfl⟩) j
  exact ⟨hm.of_extends hc.toExtends hdir, frames_congr hdir, hram⟩

/-! ## Steps on one map -/

/-- **What a step on a map does**: it writes to its tables and to free blocks only, it keeps the
PML4, and its new tables are in pages and blocks that were free. -/
structure Grows (k : KernelMem) (m : PageMap) (k' : KernelMem) (m' : PageMap) : Prop
    extends WritesWithin (frames k m) k k' where
  inv : MapInv k' m'
  pml4Phys_eq : m'.pml4Phys = m.pml4Phys
  pml4_ram : k'.ram m.pml4Frame = k.ram m.pml4Frame
  frames_subset : frames k' m' ⊆ frames k m ∪ k.blocks.freeBlocks
  pages_subset : m'.pages ⊆ m.pages ∪ k.heap.freePages
  freePages_subset : k'.heap.freePages ⊆ k.heap.freePages

theorem Grows.refl (hm : MapInv k m) : Grows k m k m :=
  ⟨⟨hm.extends_refl, fun _ _ _ ↦ rfl⟩, hm, rfl, rfl, Set.subset_union_left, Set.subset_union_left,
    subset_rfl⟩

theorem Grows.trans (h : Grows k m k' m') (h' : Grows k' m' k'' m'') : Grows k m k'' m'' := by
  have hpml4 : m'.pml4Frame = m.pml4Frame := by rw [pml4Frame, h.pml4Phys_eq, pml4Frame]
  refine ⟨h.toWritesWithin.trans h'.toWritesWithin h.frames_subset, h'.inv,
    h'.pml4Phys_eq.trans h.pml4Phys_eq, ?_, ?_, ?_, h'.freePages_subset.trans h.freePages_subset⟩
  · rw [← hpml4, h'.pml4_ram, hpml4, h.pml4_ram]
  · refine h'.frames_subset.trans (Set.union_subset h.frames_subset ?_)
    exact h.freeBlocks_subset.trans Set.subset_union_right
  · refine h'.pages_subset.trans (Set.union_subset h.pages_subset ?_)
    exact h.freePages_subset.trans Set.subset_union_right

/-- A store to one of the map's tables. -/
theorem MapInv.grows_of_store (hm : MapInv k m) {i j l : Nat} (hi : i < 512) (hj : j < 512)
    (ht : m.pageTables i j ≠ 0#64) {e : U64} (hinv : MapInv k' m)
    (hstore : k.store (m.pageTables i j) l e = .ok k') : Grows k m k' m := by
  rw [store_eq (hm.table_ptr i hi j hj ht)] at hstore
  cases hstore
  have hlive : m.Live (.table i j) := ⟨hi, hj, ht⟩
  have hother : ∀ x, m.Live x → x ≠ .table i j → nodeFrame k m x ≠ tableFrame k m i j :=
    fun x hx hne heq ↦ hne (hm.distinct x _ hx hlive heq)
  refine ⟨⟨hm.extends_ram _, fun f hf _ ↦ ?_⟩, hinv, rfl, ?_, ?_, Set.subset_union_left,
    subset_rfl⟩
  · exact Function.update_of_ne (fun heq ↦ hf ⟨_, hlive, heq.symm⟩) _ _
  · exact Function.update_of_ne (hother .pml4 trivial (by simp)) _ _
  · rw [frames_congr fun d hd l' _ ↦
      congrFun (Function.update_of_ne (hother (.dir d) hd (by simp)) _ _) l']
    exact Set.subset_union_left

/-- A new table. -/
theorem MapInv.grows_of_table (hm : MapInv k m) {i j : Nat} (hi : i < 512) (hj : j < 512)
    (hnull : m.pageTables i j = 0#64) {virt : U64} {b : Nat} (hfresh : FreshPage k virt b k') :
    Grows k m { k' with ram := tableRam k.ram (m.dirFrame i) j b } (m.setPageTable i j virt) := by
  have hstep := hm.step_of_table hi hj hnull hfresh
  have hb := hfresh.least.1
  have hdir : ∀ d < 512, m.dirFrame d ≠ b := fun d hd ↦ hm.ne_of_free (x := .dir d) hb hd
  refine ⟨⟨hstep.ext, fun f hf hfree ↦ ?_⟩, hstep.inv, rfl, hstep.pml4_ram, ?_, ?_, ?_⟩
  · funext l
    refine tableRam_other k.ram (fun heq ↦ hfree (heq ▸ hb)) fun h ↦ hf ⟨.dir i, hi, h.1.symm⟩
  · rintro f ⟨x, hx, rfl⟩
    cases x with
    | pml4 => exact .inl ⟨.pml4, trivial, rfl⟩
    | pdpt => exact .inl ⟨.pdpt, trivial, rfl⟩
    | dir d => exact .inl ⟨.dir d, hx, rfl⟩
    | table i' j' =>
      obtain ⟨hi', hj', ht⟩ := hx
      show frameOf (tableRam k.ram (m.dirFrame i) j b (m.dirFrame i') j') ∈ _
      by_cases hij : i' = i ∧ j' = j
      · rw [hij.1, hij.2, tableRam_entry,
          frameOf_tableEntry _ ((freeBlocks_lt hb).trans (by decide))]
        exact .inr hb
      · rw [pageTables_setPageTable, if_neg hij] at ht
        have hne : ¬(m.dirFrame i' = m.dirFrame i ∧ j' = j) := fun h ↦ hij
          ⟨Node.dir.inj (hm.distinct (.dir i') (.dir i) hi' hi h.1), h.2⟩
        rw [tableRam_other k.ram (hdir i' hi') hne]
        exact .inl ⟨.table i' j', ⟨hi', hj', ht⟩, rfl⟩
  · rintro p (⟨d, hd, rfl⟩ | ⟨i', hi', j', hj', ht, rfl⟩)
    · exact .inl (.inl ⟨d, hd, rfl⟩)
    · rw [pageTables_setPageTable] at ht ⊢
      split at ht
      · next hij =>
        rw [if_pos hij]
        exact .inr hfresh.page_was_free
      · next hij =>
        rw [if_neg hij]
        exact .inl (.inr ⟨i', hi', j', hj', ht, rfl⟩)
  · show k'.heap.freePages ⊆ _
    rw [hfresh.freePages_eq]
    exact Set.sdiff_subset

/-- **One page** is mapped. -/
theorem MapInv.mapPage_grows {phys : PhysOf} (hm : MapInv k m) {flags frame virt : U64}
    {taken : List U64} (hcall : PageMap.mapPage phys flags frame virt m k = .ok (m', taken, k')) :
    Grows k m k' m' := by
  have hpml4 : pml4Index virt = 0 := by
    by_contra hne
    rw [PageMap.mapPage, if_pos (.inr hne)] at hcall
    cases hcall
  obtain ⟨hp, hi, -, -⟩ := pageNumber_eq virt
  have hi' : pdptIndex virt < 512 := by omega
  have hj' := pdeIndex_lt virt
  rw [hm.mapPage_eq phys flags frame hpml4] at hcall
  obtain ⟨⟨m₁, taken₁, k₁⟩, hensure, hcall⟩ := bind_eq_ok.mp hcall
  obtain ⟨k₂, hstore, hcall⟩ := bind_eq_ok.mp hcall
  cases hcall
  -- the table, and then the store to it
  have htable : Grows k m k₁ m' ∧ m'.pageTables (pdptIndex virt) (pdeIndex virt) ≠ 0#64 := by
    by_cases ht : m.pageTables (pdptIndex virt) (pdeIndex virt) = 0#64
    · rw [hm.ensurePageTable_of_null phys hi' hj' ht] at hensure
      rcases createPageTable_spec phys hm.toKernelInv (pdeIndex virt) (hm.dir_ptr _ hi')
        (hm.owned (.dir _) hi') with ⟨v, b, k₀, hfresh, hok⟩ | ⟨e, herr, -⟩
      · rw [hok] at hensure
        cases hensure
        refine ⟨hm.grows_of_table hi' hj' ht hfresh, ?_⟩
        rw [pageTables_setPageTable, if_pos ⟨rfl, rfl⟩]
        exact hfresh.virt_ne_zero
      · rw [herr] at hensure
        cases hensure
    · rw [hm.ensurePageTable_of_table phys hi' hj' ht] at hensure
      cases hensure
      exact ⟨.refl hm, ht⟩
  obtain ⟨hgrows, ht⟩ := htable
  obtain ⟨k₃, hstore', hinv, -⟩ := hgrows.inv.store_word virt (setPageFrame flags frame) ht
  rw [hstore'] at hstore
  cases hstore
  exact hgrows.trans (hgrows.inv.grows_of_store hi' hj' ht hinv hstore')

/-- **`map_virtual_memory_4k`** touches nothing but its own map. -/
theorem MapInv.mapVirtualMemory4k_grows {phys : PhysOf} {flags : U64} : ∀ {n : Nat}
    {frame virt : U64} {k k' : KernelMem} {m m' : PageMap} {taken : List U64}, MapInv k m →
      PageMap.mapVirtualMemory4k phys flags n frame virt m k = .ok (m', taken, k') →
      Grows k m k' m'
  | 0, _, _, k, k', m, m', _, hm, hcall => by
    cases hcall
    exact .refl hm
  | n + 1, frame, virt, k, k', m, m', _, hm, hcall => by
    rw [PageMap.mapVirtualMemory4k] at hcall
    obtain ⟨⟨m₁, taken₁, k₁⟩, hpage, hcall⟩ := bind_eq_ok.mp hcall
    obtain ⟨⟨m₂, taken₂, k₂⟩, hpages, hcall⟩ := bind_eq_ok.mp hcall
    cases hcall
    have hgrows := hm.mapPage_grows hpage
    exact hgrows.trans (hgrows.inv.mapVirtualMemory4k_grows hpages)

/-! ## Creating a map -/

/-- **What the loop of `create_page_map` keeps**, when it was called in `k₀` and directory `n` is
next: everything so far was built in pages and blocks that were free then, and the PML4 is still
`row`. -/
structure BuiltFresh (k₀ : KernelMem) (row : Nat → U64) (k : KernelMem) (m : PageMap) (n : Nat) :
    Prop extends WritesWithin ∅ k₀ k where
  frames_fresh : ∀ x, BuiltTo n x → nodeFrame k m x ∈ k₀.blocks.freeBlocks
  pages_fresh : ∀ i < n, heapIndex (m.pageDirs i) ∈ k₀.heap.freePages
  pml4_row : k.ram m.pml4Frame = row
  freePages_subset : k.heap.freePages ⊆ k₀.heap.freePages

/-- One more directory. -/
theorem BuiltFresh.step {prior row : Nat → U64} {k₀ k k₁ k₂ : KernelMem} {m : PageMap} {i : Nat}
    (hf : BuiltFresh k₀ row k m i) (hb : Building prior k m i) {dir : U64} {b : Nat}
    (hfresh : FreshPage k dir b k₁) (hext : Extends k₁ k₂)
    (hpages : k₂.heap.freePages ⊆ k₁.heap.freePages) :
    BuiltFresh k₀ row { k₂ with ram := dirRam k.ram m.pdptFrame i b }
      (m.setPageDir i dir (blockAddr b)) (i + 1) := by
  have hfree := hfresh.least.1
  have hfree₀ := hf.freeBlocks_subset hfree
  have hpdpt : m.pdptFrame ∈ k₀.blocks.freeBlocks := hf.frames_fresh .pdpt trivial
  have hext₀ := hf.toExtends.trans (hfresh.toExtends.trans hext)
  refine ⟨⟨⟨⟨hext.hint, hext.heapInv⟩, hext₀.freeBlocks_subset, hext₀.translate_mono⟩,
    fun f _ hnot ↦ ?_⟩, fun x hx ↦ ?_, fun d hd ↦ ?_, ?_, ?_⟩
  · refine (funext fun l ↦ ?_ : dirRam k.ram m.pdptFrame i b f = k.ram f).trans
      (hf.ram_frame f (Set.notMem_empty f) hnot)
    exact dirRam_other k.ram (fun heq ↦ hnot (heq ▸ hfree₀)) fun h ↦ hnot (h.1 ▸ hpdpt)
  · cases x with
    | pml4 => exact hf.frames_fresh .pml4 trivial
    | pdpt => exact hpdpt
    | table i j => exact hx.elim
    | dir d =>
      have hd : d < i + 1 := hx
      show (m.setPageDir i dir (blockAddr b)).dirFrame d ∈ _
      rw [dirFrame_setPageDir m i dir ((freeBlocks_lt hfree).trans (by decide))]
      split
      · exact hfree₀
      · exact hf.frames_fresh (.dir d) (show d < i by omega)
  · show heapIndex (Function.update m.pageDirs i dir d) ∈ _
    rw [Function.update_apply]
    split
    · exact hf.freePages_subset hfresh.page_was_free
    · exact hf.pages_fresh d (by omega)
  · have hne : nodeFrame k m .pml4 ≠ b := fun heq ↦ hb.owned .pml4 trivial (heq ▸ hfree)
    refine (funext fun l ↦ ?_ : dirRam k.ram m.pdptFrame i b m.pml4Frame = _).trans hf.pml4_row
    refine dirRam_other k.ram hne fun h ↦ ?_
    cases hb.distinct .pml4 .pdpt trivial trivial h.1
  · refine hpages.trans (Set.Subset.trans ?_ hf.freePages_subset)
    rw [hfresh.freePages_eq]
    exact Set.sdiff_subset

theorem createDirs_fresh {phys : PhysOf} {mal : Malloc} {prior row : Nat → U64} {k₀ : KernelMem} :
    ∀ {n i : Nat} {k k' : KernelMem} {m m' : PageMap} {taken : List U64},
      BuiltFresh k₀ row k m i → Building prior k m i →
      createDirs phys mal n i m k = .ok (m', taken, k') → BuiltFresh k₀ row k' m' (i + n)
  | 0, i, k, k', m, m', _, hf, _, hcall => by
    cases hcall
    exact hf
  | n + 1, i, k, k', m, m', _, hf, hb, hcall => by
    rw [createDirs] at hcall
    obtain ⟨⟨m₁, taken₁, k₁⟩, hdir, hcall⟩ := bind_eq_ok.mp hcall
    obtain ⟨⟨m₂, taken₂, k₂⟩, hdirs, hcall⟩ := bind_eq_ok.mp hcall
    cases hcall
    have hb₁ := (createDir_spec hb hdir).2.2
    rw [show i + (n + 1) = i + 1 + n by omega]
    refine createDirs_fresh ?_ hb₁ hdirs
    rcases mapFreshPage_spec phys hb.toKernelInv with ⟨dir, b, k₃, hpage, hfresh⟩ | ⟨e, hpage, -⟩
    · cases hmal : mallocPages phys (mal.requests (i + 1)) k₃ with
      | error e =>
        simp only [createDir, hpage, hmal, Except.bind, bind] at hdir
        cases hdir
      | ok k₄ =>
        rw [createDir_of_fresh hb.pdpt_ptr hpage hfresh hmal] at hdir
        cases hdir
        have hext := (mallocPages_extends hfresh.toKernelInv (mal.requests_pos (i + 1)) hmal).1
        exact hf.step hb hfresh hext
          ((heapRule_freePages phys _).mallocPages subset_rfl hmal)
    · simp only [createDir, hpage, Except.bind, bind] at hdir
      cases hdir

theorem createRoot_fresh {phys : PhysOf} {mal : Malloc} {kernelPml4 : Nat → U64}
    {k k' : KernelMem} {m : PageMap} {taken : List U64} (hk : KernelInv k)
    (hcall : createRoot phys mal kernelPml4 k = .ok (m, taken, k')) :
    BuiltFresh k kernelPml4 k' m 0 := by
  rw [createRoot] at hcall
  obtain ⟨k₀, hmal, hcall⟩ := bind_eq_ok.mp hcall
  obtain ⟨⟨pdpt, pdptPhys, k₁⟩, h₁, hcall⟩ := bind_eq_ok.mp hcall
  obtain ⟨⟨virt₂, frame₂, k₂⟩, h₂, hcall⟩ := bind_eq_ok.mp hcall
  obtain ⟨⟨virt₃, frame₃, k₃⟩, h₃, hcall⟩ := bind_eq_ok.mp hcall
  obtain ⟨⟨virt₄, frame₄, k₄⟩, h₄, hcall⟩ := bind_eq_ok.mp hcall
  obtain ⟨⟨pml4, pml4Phys, k₅⟩, h₅, hcall⟩ := bind_eq_ok.mp hcall
  obtain ⟨k₆, hfill, hcall⟩ := bind_eq_ok.mp hcall
  cases hcall
  obtain ⟨hext₀, hram₀⟩ := mallocPages_extends hk (mal.requests_pos 0) hmal
  obtain ⟨b, rfl, hf₁⟩ := mapFreshPage_ok hext₀.toKernelInv h₁
  obtain ⟨b₂, rfl, hf₂⟩ := mapFreshPage_ok hf₁.toKernelInv h₂
  obtain ⟨b₃, rfl, hf₃⟩ := mapFreshPage_ok hf₂.toKernelInv h₃
  obtain ⟨b₄, rfl, hf₄⟩ := mapFreshPage_ok hf₃.toKernelInv h₄
  obtain ⟨b₅, rfl, hf₅⟩ := mapFreshPage_ok hf₄.toKernelInv h₅
  rw [fillPage_eq hf₅.translate_eq] at hfill
  cases hfill
  have hext₄ := ((hext₀.trans hf₁.toExtends).trans (hf₂.toExtends.trans hf₃.toExtends)).trans
    hf₄.toExtends
  have hb := hext₀.freeBlocks_subset hf₁.least.1
  have hb₅ := hext₄.freeBlocks_subset hf₅.least.1
  have hlt : ∀ {c : Nat}, c ∈ k.blocks.freeBlocks → c < 2 ^ 52 := fun hc ↦
    (freeBlocks_lt hc).trans (by decide)
  have hram : k₅.ram = k.ram := by
    rw [hf₅.ram_eq, hf₄.ram_eq, hf₃.ram_eq, hf₂.ram_eq, hf₁.ram_eq, hram₀]
  have hrule := heapRule_freePages phys k.heap.freePages
  have hext₅ := hext₄.trans hf₅.toExtends
  refine ⟨⟨⟨⟨hf₅.hint, hf₅.heapInv⟩, hext₅.freeBlocks_subset, hext₅.translate_mono⟩,
    fun f _ hnot ↦ ?_⟩, fun x hx ↦ ?_, fun i hi ↦ absurd hi (Nat.not_lt_zero i), ?_, ?_⟩
  · refine (Function.update_of_ne (fun heq ↦ hnot ?_) _ _).trans (congrFun hram f)
    rw [heq]
    exact hb₅
  · cases x with
    | dir i => exact absurd hx (Nat.not_lt_zero i)
    | table i j => exact hx.elim
    | pml4 =>
      show (blockAddr b₅ >>> 12).toNat ∈ _
      rwa [blockAddr_shiftRight (hlt hb₅)]
    | pdpt =>
      show (blockAddr b >>> 12).toNat ∈ _
      rwa [blockAddr_shiftRight (hlt hb)]
  · show Function.update k₅.ram b₅ kernelPml4 (blockAddr b₅ >>> 12).toNat = kernelPml4
    rw [blockAddr_shiftRight (hlt hb₅), Function.update_self]
  · have hk₁ := hrule.mapFreshPage (hrule.mallocPages subset_rfl hmal) h₁
    have hk₃ := hrule.mapFreshPage (hrule.mapFreshPage hk₁ h₂) h₃
    show k₅.heap.freePages ⊆ k.heap.freePages
    exact hrule.mapFreshPage (hrule.mapFreshPage hk₃ h₄) h₅

/-- **`create_page_map`** builds the map in pages and blocks that were free, and writes nothing
else; its PML4 is a copy of the kernel's, but for the first entry. -/
theorem createPageMap_fresh {phys : PhysOf} {mal : Malloc} {kernelPml4 : Nat → U64}
    {k k' : KernelMem} {m : PageMap} {taken : List U64} (hk : KernelInv k)
    (hcall : createPageMap phys mal kernelPml4 k = .ok (m, taken, k')) :
    WritesWithin ∅ k k' ∧ frames k' m ⊆ k.blocks.freeBlocks ∧ m.pages ⊆ k.heap.freePages ∧
      ∀ i, i ≠ 0 → k'.ram m.pml4Frame i = kernelPml4 i := by
  have hc := (createPageMap_spec hk hcall).2
  rw [createPageMap] at hcall
  obtain ⟨⟨m₁, taken₁, k₁⟩, hroot, hcall⟩ := bind_eq_ok.mp hcall
  obtain ⟨⟨m₂, taken₂, k₂⟩, hdirs, hcall⟩ := bind_eq_ok.mp hcall
  obtain ⟨k₃, hstore, hcall⟩ := bind_eq_ok.mp hcall
  cases hcall
  have hb₁ := (createRoot_spec hk hroot).2
  have hb := (createDirs_spec hb₁ hdirs).2.2
  have hf := createDirs_fresh (createRoot_fresh hk hroot) hb₁ hdirs
  rw [Nat.zero_add] at hb hf
  rw [store_eq hb.pml4_ptr] at hstore
  cases hstore
  have hpml4 : m.pml4Frame ∈ k.blocks.freeBlocks := hf.frames_fresh .pml4 trivial
  refine ⟨⟨hf.toExtends.trans (hb.extends_ram _), fun f _ hnot ↦ ?_⟩, ?_, ?_, fun i hi ↦ ?_⟩
  · refine (Function.update_of_ne (fun heq ↦ hnot ?_) _ _).trans
      (hf.ram_frame f (Set.notMem_empty f) hnot)
    rw [heq]
    exact hpml4
  · rintro f ⟨x, hx, rfl⟩
    cases x with
    | pml4 => exact hpml4
    | pdpt => exact hf.frames_fresh .pdpt trivial
    | dir i => exact hf.frames_fresh (.dir i) hx
    | table i j => exact absurd (hc.no_tables i j) hx.2.2
  · rintro p (⟨i, hi, rfl⟩ | ⟨i, hi, j, hj, ht, rfl⟩)
    · exact hf.pages_fresh i hi
    · exact absurd (hc.no_tables i j) ht
  · simp only [Function.update_self, Function.update_of_ne hi]
    exact congrFun hf.pml4_row i

end PageMap
end Borrrdex
