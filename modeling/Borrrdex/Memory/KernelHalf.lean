import Borrrdex.Memory.MapFootprint

/-!
# The kernel's half of every address space

A process gets a copy of `kernel_pml4`, made once, when its page map is created; the kernel goes on
mapping and unmapping pages of its heap after that.  Both address spaces still agree wherever the
PML4 index is not 0, since the copy frames the same `kernel_pdpt`, and all that changes lies below
it: `kernel_heap_dir` and its tables.  And `kernel_pml4` is never written again.

That a *process's* PML4 is never written again either, but for its first entry, is a matter of who
owns which page: `map_virtual_memory_4k` writes through pointers into the heap, to whatever is
mapped there.  So `kernel_map_virtual_memory_4k` and `kernel_free_4k_pages` have to keep off the
pages in which `create_page_map` and `map_virtual_memory_4k` keep their tables (`Call.Respects`).
Then everything agrees, after any calls in any order (`kernel_half_shared`); and otherwise it may
not (`remapped_directory_splits_kernel_half`).
-/

set_option autoImplicit false

namespace Borrrdex

open KernelMem KernelHeap PhysAllocator PageMap PageWalk

/-! ## The tables of the kernel image -/

/-- `IO_VIRTUAL_BASE`. -/
def ioVirtualBase : U64 := kernelVirtualBase - 0x100000000#64

/-- `PDE_CACHE_DISABLED`. -/
def pdeCacheDisabled : U64 := 16#64

/-- `kernel_pml4`, `kernel_pdpt`, `kernel_dir`, `kernel_heap_dir`, `kernel_heap_dir_tables` and
`io_dirs`. -/
inductive ImageTable
  | pml4
  | pdpt
  | dir
  | heapDir
  | heapTable (i : Fin 512)
  | ioDir (i : Fin 4)
  deriving DecidableEq

/-- Where the linker put them; each is aligned to a page, and has it for itself. -/
structure KernelImage where
  /-- The frame of each table. -/
  frame : ImageTable → Nat
  frame_injective : Function.Injective frame
  frame_lt : ∀ t, frame t < 2 ^ 40

namespace KernelImage

variable (img : KernelImage)

/-- The physical address of a table: its address, less `KERNEL_VIRTUAL_BASE`. -/
def addr (t : ImageTable) : U64 := blockAddr (img.frame t)

/-- The physical addresses of the tables of the heap. -/
def phys : PhysOf := fun i ↦ img.addr (.heapTable (Fin.ofNat 512 i))

/-- All tables. -/
def allTables : List ImageTable :=
  [.pml4, .pdpt, .dir, .heapDir] ++ (List.finRange 512).map .heapTable ++
    (List.finRange 4).map .ioDir

/-- The table in a frame. -/
def tableAt (f : Nat) : Option ImageTable := allTables.find? fun t ↦ img.frame t = f

/-- `kernel_pml4`, as `initialize_virtual_memory` leaves it. -/
def kernelPml4 : Nat → U64 :=
  let entry := setPageFrame 0#64 (img.addr .pdpt) ||| (tableWriteable ||| tablePresent)
  Function.update (Function.update (fun _ ↦ 0#64) (pml4Index kernelVirtualBase) entry) 0 entry

/-- `kernel_pdpt`.  Its first entry maps low memory. -/
def kernelPdpt : Nat → U64 :=
  let flags := tableWriteable ||| tablePresent
  let words := Function.update (fun _ ↦ 0#64) (pdptIndex kernelVirtualBase)
    (img.addr .dir ||| flags)
  let words := Function.update words 511 (setPageFrame flags (img.addr .heapDir))
  let words := (List.finRange 4).foldl
    (fun words (i : Fin 4) ↦
      Function.update words (pdptIndex ioVirtualBase + i.val) (img.addr (.ioDir i) ||| flags)) words
  Function.update words 0 (words (pdptIndex kernelVirtualBase))

/-- `kernel_dir`. -/
def kernelDir (j : Nat) : U64 :=
  BitVec.ofNat 64 (0x200000 * j) ||| (pde2M ||| tableWriteable ||| tablePresent)

/-- One of `io_dirs`. -/
def ioDir (i j : Nat) : U64 :=
  BitVec.ofNat 64 (0x40000000 * i + 0x200000 * j) |||
    (pde2M ||| tableWriteable ||| tablePresent ||| pdeCacheDisabled)

/-- `initialize_virtual_memory`. -/
def initializeVirtualMemory (k : KernelMem) : KernelMem :=
  { k with
    heap := KernelHeap.atInit
    ram := fun f ↦
      match img.tableAt f with
      | some .pml4 => img.kernelPml4
      | some .pdpt => img.kernelPdpt
      | some .dir => kernelDir
      | some (.ioDir i) => ioDir i
      | _ => k.ram f }

/-- **What the hardware reads**: the heap's directory and tables are frames as all others. -/
def hwRam (k : KernelMem) (f : Nat) : Nat → U64 :=
  match img.tableAt f with
  | some .heapDir => k.heap.dir
  | some (.heapTable i) => k.heap.tables i
  | _ => k.ram f

theorem mem_allTables (t : ImageTable) : t ∈ allTables := by
  cases t <;> simp [allTables]

theorem tableAt_eq_some {f : Nat} {t : ImageTable} : img.tableAt f = some t ↔ img.frame t = f := by
  constructor
  · intro h
    have hfound := List.find?_some h
    exact of_decide_eq_true hfound
  · intro h
    cases hfind : img.tableAt f with
    | none =>
      have hnone := List.find?_eq_none.mp hfind t (mem_allTables t)
      exact absurd (decide_eq_true h) hnone
    | some t' =>
      have hfound := List.find?_some hfind
      rw [img.frame_injective ((of_decide_eq_true hfound).trans h.symm)]

theorem tableAt_eq_none {f : Nat} (h : ∀ t, img.frame t ≠ f) : img.tableAt f = none := by
  rw [Option.eq_none_iff_forall_ne_some]
  intro t ht
  exact h t (img.tableAt_eq_some.mp ht)

theorem hwRam_table {k : KernelMem} (t : ImageTable) (hdir : t ≠ .heapDir)
    (htable : ∀ i, t ≠ .heapTable i) : img.hwRam k (img.frame t) = k.ram (img.frame t) := by
  rw [hwRam, img.tableAt_eq_some.mpr rfl]
  cases t with
  | heapDir => exact absurd rfl hdir
  | heapTable i => exact absurd rfl (htable i)
  | pml4 => rfl
  | pdpt => rfl
  | dir => rfl
  | ioDir i => rfl

theorem hwRam_heapDir (k : KernelMem) : img.hwRam k (img.frame .heapDir) = k.heap.dir := by
  rw [hwRam, img.tableAt_eq_some.mpr rfl]

theorem hwRam_heapTable (k : KernelMem) (i : Fin 512) :
    img.hwRam k (img.frame (.heapTable i)) = k.heap.tables i := by
  rw [hwRam, img.tableAt_eq_some.mpr rfl]

theorem hwRam_other {k : KernelMem} {f : Nat} (h : ∀ t, img.frame t ≠ f) :
    img.hwRam k f = k.ram f := by
  rw [hwRam, img.tableAt_eq_none h]

/-- The kernel's PML4 frames `kernel_pdpt`, and nothing of it is for users. -/
theorem kernelPml4_user {j : Nat} (hj : j ≠ 0) : img.kernelPml4 j &&& pageUser = 0#64 := by
  have hentry : (setPageFrame 0#64 (img.addr .pdpt) ||| (tableWriteable ||| tablePresent)) &&&
      pageUser = 0#64 := by
    rw [BitVec.and_or_distrib_right, setPageFrame, BitVec.zero_and, BitVec.zero_or,
      BitVec.and_assoc, show pageFrame &&& pageUser = 0#64 by decide, BitVec.and_zero]
    decide
  rw [kernelPml4, Function.update_of_ne hj, Function.update_apply]
  split
  · exact hentry
  · exact BitVec.zero_and

theorem kernelPml4_last : present (img.kernelPml4 511) = true ∧
    frameOf (img.kernelPml4 511) = img.frame .pdpt := by
  have hindex : pml4Index kernelVirtualBase = 511 := by decide
  rw [kernelPml4, Function.update_of_ne (by decide), hindex, Function.update_self]
  constructor
  · rw [present_or, show present (tableWriteable ||| tablePresent) = true by decide, Bool.or_true]
  · rw [frameOf_or (by decide), frameOf_setPageFrame, addr, frameOf_blockAddr (img.frame_lt _)]

theorem kernelPdpt_last : present (img.kernelPdpt 511) = true ∧
    large (img.kernelPdpt 511) = false ∧ frameOf (img.kernelPdpt 511) = img.frame .heapDir := by
  have hentry : img.kernelPdpt 511 =
      setPageFrame (tableWriteable ||| tablePresent) (img.addr .heapDir) := by
    rw [kernelPdpt]
    simp only [show List.finRange 4 = [0, 1, 2, 3] by decide, List.foldl_cons, List.foldl_nil]
    have hio : pdptIndex ioVirtualBase = 506 := by decide
    rw [hio, Function.update_of_ne (by decide), Function.update_of_ne (by decide),
      Function.update_of_ne (by decide), Function.update_of_ne (by decide),
      Function.update_of_ne (by decide), Function.update_self]
  rw [hentry, present_setPageFrame, large_setPageFrame, frameOf_setPageFrame, addr,
    frameOf_blockAddr (img.frame_lt _)]
  exact ⟨by decide, by decide, rfl⟩

theorem frameOf_phys {d : Nat} (hd : d < 512) :
    frameOf (img.phys d) = img.frame (.heapTable ⟨d, hd⟩) := by
  have hfin : Fin.ofNat 512 d = ⟨d, hd⟩ := Fin.ext (Nat.mod_eq_of_lt hd)
  rw [phys, addr, frameOf_blockAddr (img.frame_lt _), hfin]

end KernelImage

/-! ## Runs -/

/-- The kernel's memory and the page maps of all processes.  `kept` are the heap pages that
`create_page_map` and `map_virtual_memory_4k` took for them; no function computes it. -/
structure Paging where
  /-- The memory. -/
  mem : KernelMem
  /-- The page maps. -/
  maps : List PageMap
  /-- The pages they are kept in. -/
  kept : Set Nat

/-- The calls of a run, with their arguments; `malloc` has its own way in each. -/
inductive Call
  | createPageMap (mal : Malloc)
  | mapVirtualMemory4k (map : Nat) (flags : U64) (amount : Nat) (frame virt : U64)
  | kernelAllocate4kPages (amount : Nat)
  | kernelMapVirtualMemory4k (flags : U64) (amount : Nat) (frame virt : U64)
  | kernelFree4kPages (amount : Nat) (virt : U64)

namespace Paging

/-- The state after a call on the page maps: what it took from the heap, it keeps. -/
def keep (x : Paging) (k : KernelMem) (maps : List PageMap) : Paging :=
  ⟨k, maps, x.kept ∪ (x.mem.heap.freePages \ k.heap.freePages)⟩

/-- One call. -/
def step (img : KernelImage) (x : Paging) : Call → Except Halt Paging
  | .createPageMap mal => do
    let (m, _, k) ← PageMap.createPageMap img.phys mal (x.mem.ram (img.frame .pml4)) x.mem
    return x.keep k (x.maps ++ [m])
  | .mapVirtualMemory4k i flags amount frame virt =>
    match x.maps[i]? with
    | none => .ok x
    | some m => do
      let (m, _, k) ← PageMap.mapVirtualMemory4k img.phys flags amount frame virt m x.mem
      return x.keep k (x.maps.set i m)
  | .kernelAllocate4kPages amount => do
    let (_, heap) ← KernelHeap.kernelAllocate4kPages img.phys amount x.mem.heap
    return { x with mem := { x.mem with heap := heap } }
  | .kernelMapVirtualMemory4k flags amount frame virt =>
    .ok { x with
      mem := { x.mem with
        heap := KernelHeap.kernelMapVirtualMemory4k flags amount frame virt x.mem.heap } }
  | .kernelFree4kPages amount virt =>
    .ok { x with
      mem := { x.mem with heap := KernelHeap.kernelFree4kPages amount virt x.mem.heap } }

end Paging

/-- **What the kernel's callers keep to**: they map only pages of tables that are in use, and
neither map nor free a page that a page map is kept in. -/
def Call.Respects (x : Paging) : Call → Prop
  | .kernelMapVirtualMemory4k _ amount _ virt => ∀ j < amount,
    heapIndex (pageAt virt j) ∉ x.kept ∧ present (x.mem.heap.dir (pdeIndex (pageAt virt j))) = true
  | .kernelFree4kPages amount virt => ∀ j < amount, heapIndex (pageAt virt j) ∉ x.kept
  | _ => True

/-- The states after `initialize_virtual_memory` and any calls that return, each of which meets
`P`.  The boot loader's memory map does not list the kernel image as usable. -/
inductive PagingReaches (img : KernelImage) (P : Paging → Call → Prop) : Paging → Prop
  | start (k : KernelMem) (hhint : HintInv k.blocks)
      (himage : ∀ t, img.frame t ∉ k.blocks.freeBlocks) :
      PagingReaches img P ⟨img.initializeVirtualMemory k, [], ∅⟩
  | step {x x' : Paging} {c : Call} (hr : PagingReaches img P x) (hc : P x c)
      (hcall : x.step img c = .ok x') : PagingReaches img P x'

/-- **The kernel's half**: where the PML4 index is not 0, all address spaces agree, no user gets
there, and what the kernel has mapped in its heap is mapped in all of them. -/
structure KernelHalfShared (img : KernelImage) (x : Paging) : Prop where
  same_walk : ∀ m ∈ x.maps, ∀ v, pml4Index v ≠ 0 →
    walk entryFormat (img.hwRam x.mem) m.pml4Frame (walkPath v) =
      walk entryFormat (img.hwRam x.mem) (img.frame .pml4) (walkPath v)
  not_user : ∀ m ∈ x.maps, ∀ v, pml4Index v ≠ 0 →
    ¬∀ e ∈ words entryFormat (img.hwRam x.mem) m.pml4Frame (walkPath v), e &&& pageUser ≠ 0#64
  heap_visible : ∀ m ∈ x.maps, ∀ v f, x.mem.heap.translate v = some f →
    walk entryFormat (img.hwRam x.mem) m.pml4Frame (walkPath v) =
      .last (x.mem.heap.entry (heapIndex v)) ∧ frameOf (x.mem.heap.entry (heapIndex v)) = f

/-! ## What every run keeps -/

/-- A process's page map, as every call leaves it: its PML4 is the kernel's but for the first entry,
none of its tables is one of the kernel's own, and their pages are kept. -/
structure ProcessMap (img : KernelImage) (k : KernelMem) (kept : Set Nat) (m : PageMap) : Prop
    extends MapInv k m where
  pml4_row : ∀ j, j ≠ 0 → k.ram m.pml4Frame j = img.kernelPml4 j
  apart : ∀ t, img.frame t ∉ frames k m
  pages_kept : m.pages ⊆ kept

/-- **The invariant.**  No two maps share a table, and the kernel's tables are as
`initialize_virtual_memory` left them, but for the heap's. -/
structure PagingInv (img : KernelImage) (x : Paging) : Prop extends KernelInv x.mem where
  dirFrames : DirFrames img.phys x.mem.heap
  image_owned : ∀ t, img.frame t ∉ x.mem.blocks.freeBlocks
  pml4_ram : x.mem.ram (img.frame .pml4) = img.kernelPml4
  pdpt_ram : x.mem.ram (img.frame .pdpt) = img.kernelPdpt
  process : ∀ m ∈ x.maps, ProcessMap img x.mem x.kept m
  disjoint : x.maps.Pairwise fun m m' ↦ Disjoint (frames x.mem m) (frames x.mem m')

/-- The kernel half is shared. -/
theorem PagingInv.kernelHalfShared {img : KernelImage} {x : Paging} (hx : PagingInv img x) :
    KernelHalfShared img x := by
  have hroot : img.hwRam x.mem (img.frame .pml4) = img.kernelPml4 :=
    (img.hwRam_table .pml4 (by simp) (by simp)).trans hx.pml4_ram
  have hpdpt : img.hwRam x.mem (img.frame .pdpt) = img.kernelPdpt :=
    (img.hwRam_table .pdpt (by simp) (by simp)).trans hx.pdpt_ram
  have hrow : ∀ m ∈ x.maps, ∀ j, j ≠ 0 →
      img.hwRam x.mem m.pml4Frame j = img.kernelPml4 j := by
    intro m hm j hj
    have hpm := hx.process m hm
    have hother : ∀ t, img.frame t ≠ m.pml4Frame := fun t heq ↦
      hpm.apart t ⟨.pml4, trivial, heq.symm⟩
    rw [img.hwRam_other hother]
    exact hpm.pml4_row j hj
  refine ⟨fun m hm v hv ↦ ?_, fun m hm v hv huser ↦ ?_, fun m hm v f htr ↦ ?_⟩
  · refine walk_of_same_word ?_
    rw [hrow m hm _ hv, hroot]
  · refine huser _ (mem_words_cons _ _ _ _ _) ?_
    rw [hrow m hm _ hv]
    exact img.kernelPml4_user hv
  · obtain ⟨h4, h3, hp, hl, -, hf⟩ := translate_eq_some.mp htr
    have hd := pdeIndex_lt v
    refine ⟨?_, hf⟩
    -- from the PML4 down, one table at a time
    obtain ⟨hp4, hf4⟩ := img.kernelPml4_last
    obtain ⟨hp3, hl3, hf3⟩ := img.kernelPdpt_last
    have hlast := hrow m hm 511 (by decide)
    have hdir := img.hwRam_heapDir x.mem
    have hframe := (hx.dirFrames _ hp).trans (img.frameOf_phys hd)
    rw [walkPath, h4, h3, walk_table (by rw [hlast]; exact hp4) rfl, hlast,
      show entryFormat.frame (img.kernelPml4 511) = img.frame .pdpt from hf4,
      walk_table (by rw [hpdpt]; exact hp3) (by rw [hpdpt]; exact hl3), hpdpt,
      show entryFormat.frame (img.kernelPdpt 511) = img.frame .heapDir from hf3,
      walk_table (by rw [hdir]; exact hp) (by rw [hdir]; exact hl), hdir,
      show entryFormat.frame (x.mem.heap.dir (pdeIndex v)) = _ from hframe, walk_last,
      img.hwRam_heapTable, entry_heapIndex]

/-- `kernel_map_virtual_memory_4k` writes no entries but those its addresses select. -/
theorem kernelMapVirtualMemory4k_other (flags : U64) : ∀ (n : Nat) (frame virt : U64)
    (h : KernelHeap),
    (KernelHeap.kernelMapVirtualMemory4k flags n frame virt h).dir = h.dir ∧
      ∀ p, (∀ j < n, p ≠ heapIndex (pageAt virt j)) →
        (KernelHeap.kernelMapVirtualMemory4k flags n frame virt h).entry p = h.entry p
  | 0, _, _, _ => ⟨rfl, fun _ _ ↦ rfl⟩
  | n + 1, frame, virt, h => by
    obtain ⟨hdir, hrest⟩ := kernelMapVirtualMemory4k_other flags n (frame + 0x1000#64)
      (virt + 0x1000#64) (h.setEntry (pdeIndex virt) (ptIndex virt) (setPageFrame flags frame))
    rw [KernelHeap.kernelMapVirtualMemory4k]
    refine ⟨hdir, fun p hp ↦ ?_⟩
    have hfirst := hp 0 (Nat.succ_pos n)
    rw [pageAt_zero] at hfirst
    rw [hrest p fun j hj ↦ by rw [← pageAt_succ]; exact hp (j + 1) (by omega),
      entry_setEntry_heapIndex, if_neg hfirst]

section Steps

variable {img : KernelImage} {x : Paging}

/-- What writes to other blocks keeps a process's map. -/
theorem ProcessMap.of_writesWithin {k k' : KernelMem} {kept kept' own : Set Nat} {m : PageMap}
    (hp : ProcessMap img k kept m) (hw : WritesWithin own k k') (hdisj : Disjoint (frames k m) own)
    (hkept : kept ⊆ kept') : ProcessMap img k' kept' m ∧ frames k' m = frames k m := by
  obtain ⟨hm, hframes, hram⟩ := hp.toMapInv.of_writesWithin hw hdisj
  refine ⟨⟨hm, fun j hj ↦ ?_, fun t ↦ ?_, hp.pages_kept.trans hkept⟩, hframes⟩
  · rw [hram m.pml4Frame ⟨.pml4, trivial, rfl⟩]
    exact hp.pml4_row j hj
  · rw [hframes]
    exact hp.apart t

/-- The kernel's own tables are never written to. -/
theorem PagingInv.image_ram (hx : PagingInv img x) {own : Set Nat} {k : KernelMem}
    (hw : WritesWithin own x.mem k) (hown : ∀ t, img.frame t ∉ own) (t : ImageTable) :
    k.ram (img.frame t) = x.mem.ram (img.frame t) :=
  hw.ram_frame _ (hown t) (hx.image_owned t)

/-- **A new page map.** -/
theorem PagingInv.create (hx : PagingInv img x) {mal : Malloc} {m : PageMap} {taken : List U64}
    {k : KernelMem} (hcall : PageMap.createPageMap img.phys mal
      (x.mem.ram (img.frame .pml4)) x.mem =
      .ok (m, taken, k)) : PagingInv img (x.keep k (x.maps ++ [m])) := by
  obtain ⟨hw, hframes, hpages, hrow⟩ := createPageMap_fresh hx.toKernelInv hcall
  have hm := (createPageMap_spec hx.toKernelInv hcall).2.inv
  have himage := hx.image_ram hw fun t ↦ Set.notMem_empty _
  have hold : ∀ m' ∈ x.maps, ProcessMap img k (x.keep k (x.maps ++ [m])).kept m' ∧
      frames k m' = frames x.mem m' := fun m' hm' ↦
    (hx.process m' hm').of_writesWithin hw (Set.disjoint_empty _) Set.subset_union_left
  have hnew : ProcessMap img k (x.keep k (x.maps ++ [m])).kept m := by
    refine ⟨hm, fun j hj ↦ ?_, fun t hmem ↦ hx.image_owned t (hframes hmem), fun p hp ↦ .inr ?_⟩
    · rw [hrow j hj, hx.pml4_ram]
    · exact ⟨hpages hp, Set.disjoint_left.mp hm.pages_disjoint_free hp⟩
  refine ⟨hw.toKernelInv, (heapRule_dirFrames _).createPageMap hx.dirFrames hcall,
    fun t hmem ↦ hx.image_owned t (hw.freeBlocks_subset hmem), (himage .pml4).trans hx.pml4_ram,
    (himage .pdpt).trans hx.pdpt_ram, fun m' hm' ↦ ?_, List.pairwise_append.mpr ⟨?_, ?_, ?_⟩⟩
  · rcases List.mem_append.mp hm' with hm' | hm'
    · exact (hold m' hm').1
    · rw [List.mem_singleton.mp hm']
      exact hnew
  · refine hx.disjoint.imp_of_mem fun {m₁ m₂} h₁ h₂ hdisj ↦ ?_
    show Disjoint (frames k m₁) (frames k m₂)
    rw [(hold m₁ h₁).2, (hold m₂ h₂).2]
    exact hdisj
  · exact List.pairwise_singleton _ _
  · intro m₁ h₁ m₂ h₂
    show Disjoint (frames k m₁) (frames k m₂)
    rw [List.mem_singleton.mp h₂, (hold m₁ h₁).2]
    exact (hx.process m₁ h₁).frames_disjoint_free.mono_right hframes

/-- **A page map grows.** -/
theorem PagingInv.grow (hx : PagingInv img x) {before after : List PageMap} {m m' : PageMap}
    {k : KernelMem} (hmaps : x.maps = before ++ m :: after) (hg : Grows x.mem m k m')
    (hdir : DirFrames img.phys k.heap) : PagingInv img (x.keep k (before ++ m' :: after)) := by
  have hpm := hx.process m (by rw [hmaps]; exact List.mem_append_right _ List.mem_cons_self)
  have himage := hx.image_ram hg.toWritesWithin hpm.apart
  obtain ⟨hbefore, hrest, hcross⟩ := List.pairwise_append.mp (hmaps ▸ hx.disjoint)
  obtain ⟨hafter, hrest⟩ := List.pairwise_cons.mp hrest
  -- the other maps stay, and share nothing with the one that grows
  have hother : ∀ o, o ∈ before ∨ o ∈ after → ProcessMap img k (x.keep k []).kept o ∧
      frames k o = frames x.mem o ∧ Disjoint (frames x.mem o) (frames k m') := by
    intro o ho
    have hmem : o ∈ x.maps := by
      rw [hmaps]
      rcases ho with ho | ho
      · exact List.mem_append_left _ ho
      · exact List.mem_append_right _ (List.mem_cons_of_mem _ ho)
    have hdisj : Disjoint (frames x.mem o) (frames x.mem m) := by
      rcases ho with ho | ho
      · exact hcross o ho m List.mem_cons_self
      · exact (hafter o ho).symm
    have hpo := hx.process o hmem
    obtain ⟨hpo', hframes⟩ := hpo.of_writesWithin hg.toWritesWithin hdisj Set.subset_union_left
    refine ⟨hpo', hframes, Set.disjoint_of_subset_right hg.frames_subset ?_⟩
    exact Set.disjoint_union_right.mpr ⟨hdisj, hpo.frames_disjoint_free⟩
  have hpml4 : m'.pml4Frame = m.pml4Frame := by rw [pml4Frame, hg.pml4Phys_eq, pml4Frame]
  have hgrown : ProcessMap img k (x.keep k []).kept m' := by
    refine ⟨hg.inv, fun j hj ↦ ?_, fun t hmem ↦ ?_, fun p hp ↦ ?_⟩
    · rw [hpml4, hg.pml4_ram]
      exact hpm.pml4_row j hj
    · exact (hg.frames_subset hmem).elim (hpm.apart t) (hx.image_owned t)
    · rcases hg.pages_subset hp with hp' | hp'
      · exact .inl (hpm.pages_kept hp')
      · exact .inr ⟨hp', Set.disjoint_left.mp hg.inv.pages_disjoint_free hp⟩
  refine ⟨hg.toKernelInv, hdir, fun t hmem ↦ hx.image_owned t (hg.freeBlocks_subset hmem),
    (himage .pml4).trans hx.pml4_ram, (himage .pdpt).trans hx.pdpt_ram, fun o ho ↦ ?_,
    List.pairwise_append.mpr ⟨?_, List.pairwise_cons.mpr ⟨fun o ho ↦ ?_, ?_⟩, fun o₁ h₁ o₂ h₂ ↦ ?_⟩⟩
  · rcases List.mem_append.mp ho with ho | ho
    · exact (hother o (.inl ho)).1
    rcases List.mem_cons.mp ho with rfl | ho
    · exact hgrown
    · exact (hother o (.inr ho)).1
  · refine hbefore.imp_of_mem fun {o₁ o₂} h₁ h₂ hdisj ↦ ?_
    show Disjoint (frames k o₁) (frames k o₂)
    rw [(hother o₁ (.inl h₁)).2.1, (hother o₂ (.inl h₂)).2.1]
    exact hdisj
  · show Disjoint (frames k m') (frames k o)
    rw [(hother o (.inr ho)).2.1]
    exact (hother o (.inr ho)).2.2.symm
  · refine hrest.imp_of_mem fun {o₁ o₂} h₁ h₂ hdisj ↦ ?_
    show Disjoint (frames k o₁) (frames k o₂)
    rw [(hother o₁ (.inr h₁)).2.1, (hother o₂ (.inr h₂)).2.1]
    exact hdisj
  · show Disjoint (frames k o₁) (frames k o₂)
    rw [(hother o₁ (.inl h₁)).2.1]
    rcases List.mem_cons.mp h₂ with rfl | h₂
    · exact (hother o₁ (.inl h₁)).2.2
    · rw [(hother o₂ (.inr h₂)).2.1]
      exact hcross o₁ h₁ o₂ (List.mem_cons_of_mem _ h₂)

/-- **A call on the heap**, which leaves the translations of all kept pages. -/
theorem PagingInv.withHeap (hx : PagingInv img x) {heap : KernelHeap} (hinv : HeapInv heap)
    (hdir : DirFrames img.phys heap)
    (htr : ∀ v f, heapIndex v ∈ x.kept → x.mem.heap.translate v = some f →
      heap.translate v = some f) :
    PagingInv img { x with mem := { x.mem with heap := heap } } := by
  refine ⟨⟨hx.hint, hinv⟩, hdir, hx.image_owned, hx.pml4_ram, hx.pdpt_ram, fun m hm ↦ ?_,
    hx.disjoint⟩
  have hpm := hx.process m hm
  have hleaves : LeavesAlone m x.mem { x.mem with heap := heap } := by
    refine ⟨⟨hx.hint, hinv⟩, fun i hi ↦ ?_, fun i hi j hj ht ↦ ?_, fun _ _ _ _ ↦ rfl,
      fun _ _ h ↦ h⟩
    · have hptr := hpm.dir_ptr i hi
      rw [htr _ _ (hpm.pages_kept (.inl ⟨i, hi, rfl⟩)) hptr, hptr]
    · have hptr := hpm.table_ptr i hi j hj ht
      rw [htr _ _ (hpm.pages_kept (.inr ⟨i, hi, j, hj, ht, rfl⟩)) hptr, hptr]
  exact ⟨hpm.toMapInv.of_leavesAlone hleaves, hpm.pml4_row, hpm.apart, hpm.pages_kept⟩

/-- Whatever was allocated, no translation is lost. -/
theorem PagingInv.allocate (hx : PagingInv img x) {amount : Nat} {addr : U64} {heap : KernelHeap}
    (hcall : KernelHeap.kernelAllocate4kPages img.phys amount x.mem.heap = .ok (addr, heap)) :
    PagingInv img { x with mem := { x.mem with heap := heap } } := by
  have hdir := (kernelAllocate4kPages_marks hcall).dirFrames hx.dirFrames
  have hpos : ∀ {n : Nat}, 1 ≤ n →
      KernelHeap.kernelAllocate4kPages img.phys n x.mem.heap = .ok (addr, heap) →
      PagingInv img { x with mem := { x.mem with heap := heap } } := by
    intro n hn hcall
    obtain ⟨start, ha⟩ := kernelAllocate4kPages_spec hx.heapInv hn hcall
    refine hx.withHeap (ha.heapInv hx.heapInv) hdir fun v f _ hf ↦
      translate_mono hf ha.dir_mono fun hused ↦ ?_
    have hnot : ¬(start ≤ heapIndex v ∧ heapIndex v < start + n) := by
      rintro ⟨h1, h2⟩
      rw [ha.was_free _ h1 h2] at hused
      cases hused
    rw [ha.entry_eq, if_neg hnot]
  cases amount with
  | succ n => exact hpos (Nat.le_add_left 1 n) hcall
  | zero =>
    rcases kernelAllocate4kPages_zero hcall with hone | ⟨d, hd, rfl⟩
    · exact hpos le_rfl hone
    · refine hx.withHeap (hx.heapInv.openTable d) hdir fun v f _ hf ↦
        translate_mono hf (fun d' hp ↦ ?_) fun _ ↦ rfl
      have hne : d' ≠ d := by
        rintro rfl
        rw [hd] at hp
        cases hp
      rw [dir_openTable, if_neg hne]

/-- A page that is not among those a call writes keeps its translation. -/
theorem translate_of_other {h h' : KernelHeap} {virt : U64} {n : Nat} (hdir : h'.dir = h.dir)
    (hrest : ∀ p, (∀ j < n, p ≠ heapIndex (pageAt virt j)) → h'.entry p = h.entry p)
    {kept : Set Nat} (hkept : ∀ j < n, heapIndex (pageAt virt j) ∉ kept) {v : U64} {f : Nat}
    (hv : heapIndex v ∈ kept) (hf : h.translate v = some f) : h'.translate v = some f :=
  translate_mono hf (fun d _ ↦ congrFun hdir d) fun _ ↦
    hrest _ fun j hj heq ↦ hkept j hj (heq ▸ hv)

/-- `kernel_map_virtual_memory_4k` on pages that are not kept. -/
theorem PagingInv.kernelMap (hx : PagingInv img x) {flags frame virt : U64} {amount : Nat}
    (hc : Call.Respects x (.kernelMapVirtualMemory4k flags amount frame virt)) :
    PagingInv img { x with
      mem := { x.mem with
        heap := KernelHeap.kernelMapVirtualMemory4k flags amount frame virt x.mem.heap } } := by
  obtain ⟨hdir, hrest⟩ := kernelMapVirtualMemory4k_other flags amount frame virt x.mem.heap
  have hinv : HeapInv (KernelHeap.kernelMapVirtualMemory4k flags amount frame virt x.mem.heap) := by
    refine ⟨fun p hp ↦ ?_, fun d ↦ ?_⟩
    · rw [hdir] at hp
      rw [hrest p fun j hj heq ↦ ?_]
      · exact hx.heapInv.unused_empty p hp
      · rw [heq, heapIndex_div, (hc j hj).2] at hp
        cases hp
    · rw [hdir]
      exact hx.heapInv.not_large d
  refine hx.withHeap hinv (fun d hp ↦ ?_) fun v f hv hf ↦
    translate_of_other hdir hrest (fun j hj ↦ (hc j hj).1) hv hf
  rw [hdir] at hp ⊢
  exact hx.dirFrames d hp

/-- `kernel_free_4k_pages` on pages that are not kept. -/
theorem PagingInv.kernelFree (hx : PagingInv img x) {amount : Nat} {virt : U64}
    (hc : Call.Respects x (.kernelFree4kPages amount virt)) :
    PagingInv img { x with
      mem := { x.mem with heap := KernelHeap.kernelFree4kPages amount virt x.mem.heap } } := by
  obtain ⟨hdir, hclear, hrest⟩ := kernelFree4kPages_spec amount virt x.mem.heap
  have hinv : HeapInv (KernelHeap.kernelFree4kPages amount virt x.mem.heap) := by
    refine ⟨fun p hp ↦ ?_, fun d ↦ ?_⟩
    · rw [hdir] at hp
      by_cases hfreed : ∃ j < amount, p = heapIndex (pageAt virt j)
      · obtain ⟨j, hj, rfl⟩ := hfreed
        rw [hclear j hj]
        decide
      · rw [hrest p fun j hj heq ↦ hfreed ⟨j, hj, heq⟩]
        exact hx.heapInv.unused_empty p hp
    · rw [hdir]
      exact hx.heapInv.not_large d
  refine hx.withHeap hinv (fun d hp ↦ ?_) fun v f hv hf ↦
    translate_of_other hdir hrest hc hv hf
  rw [hdir] at hp ⊢
  exact hx.dirFrames d hp

/-- **One call.** -/
theorem PagingInv.step (hx : PagingInv img x) {c : Call} {x' : Paging} (hc : c.Respects x)
    (hcall : x.step img c = .ok x') : PagingInv img x' := by
  cases c with
  | createPageMap mal =>
    obtain ⟨⟨m, taken, k⟩, hcreate, hcall⟩ := bind_eq_ok.mp hcall
    cases hcall
    exact hx.create hcreate
  | mapVirtualMemory4k i flags amount frame virt =>
    rw [Paging.step] at hcall
    split at hcall
    · cases hcall
      exact hx
    next m hm =>
    obtain ⟨⟨m', taken, k⟩, hmap, hcall⟩ := bind_eq_ok.mp hcall
    cases hcall
    obtain ⟨hi, hget⟩ := List.getElem?_eq_some_iff.mp hm
    have hsplit : x.maps = x.maps.take i ++ m :: x.maps.drop (i + 1) := by
      rw [← hget, List.cons_getElem_drop_succ, List.take_append_drop]
    rw [List.set_eq_take_append_cons_drop, if_pos hi]
    exact hx.grow hsplit ((hx.process m (List.mem_of_getElem? hm)).mapVirtualMemory4k_grows hmap)
      ((heapRule_dirFrames _).mapVirtualMemory4k hx.dirFrames hmap)
  | kernelAllocate4kPages amount =>
    obtain ⟨⟨addr, heap⟩, halloc, hcall⟩ := bind_eq_ok.mp hcall
    cases hcall
    exact hx.allocate halloc
  | kernelMapVirtualMemory4k flags amount frame virt =>
    cases hcall
    exact hx.kernelMap hc
  | kernelFree4kPages amount virt =>
    cases hcall
    exact hx.kernelFree hc

end Steps

/-- Where every run starts. -/
theorem pagingInv_start (img : KernelImage) {k : KernelMem} (hhint : HintInv k.blocks)
    (himage : ∀ t, img.frame t ∉ k.blocks.freeBlocks) :
    PagingInv img ⟨img.initializeVirtualMemory k, [], ∅⟩ := by
  refine ⟨⟨hhint, heapInv_atInit⟩, fun d hp ↦ ?_, himage, ?_, ?_, by simp, List.Pairwise.nil⟩
  · exact absurd hp (show ¬present 0#64 = true by decide)
  · simp only [KernelImage.initializeVirtualMemory, img.tableAt_eq_some.mpr rfl]
  · simp only [KernelImage.initializeVirtualMemory, img.tableAt_eq_some.mpr rfl]

/-- **Every run.** -/
theorem pagingReaches_inv {img : KernelImage} {x : Paging}
    (hr : PagingReaches img (fun x c ↦ c.Respects x) x) : PagingInv img x := by
  induction hr with
  | start k hhint himage => exact pagingInv_start img hhint himage
  | step _ hc hcall ih => exact ih.step hc hcall

/-- **The kernel's half is the same in every address space**, after any calls in any order, as long
as the kernel keeps off the pages its page maps are kept in. -/
theorem kernel_half_shared {img : KernelImage} {x : Paging}
    (hr : PagingReaches img (fun x c ↦ c.Respects x) x) : KernelHalfShared img x :=
  (pagingReaches_inv hr).kernelHalfShared

/-! ## A machine with one process -/

/-- A kernel image that lies right behind the first eight megabytes. -/
def sampleImage : KernelImage where
  frame
    | .pml4 => 2048
    | .pdpt => 2049
    | .dir => 2050
    | .heapDir => 2051
    | .ioDir i => 2052 + i
    | .heapTable i => 2056 + i
  frame_injective := by
    intro t t' h
    cases t <;> cases t' <;> simp only [] at h <;> first | rfl | omega | skip
    all_goals exact congrArg _ (Fin.ext (by omega))
  frame_lt := by
    intro t
    cases t <;> simp only [] <;> omega

theorem sampleImage_frame_ge (t : ImageTable) : 2048 ≤ sampleImage.frame t := by
  cases t <;> simp only [sampleImage] <;> omega

/-- The machine of four megabytes, with that image in it. -/
def sampleStart : KernelMem :=
  sampleImage.initializeVirtualMemory (fourMegMem fun _ _ ↦ 0#64)

theorem sampleStart_free {b : Nat} (hb : b ∈ sampleStart.blocks.freeBlocks) :
    256 ≤ b ∧ b < 1280 := by
  have hb' : b ∈ (↑(Finset.Ico 256 1280) : Set Nat) :=
    fourMegMem_freeBlocks (fun _ _ ↦ 0#64) ▸ hb
  rwa [Finset.coe_Ico, Set.mem_Ico] at hb'

theorem sampleStart_supply : Supply sampleStart 1024 := fourMegMem_supply sampleStart.ram

/-- It can create a process. -/
theorem sampleStart_process {P : Paging → Call → Prop}
    (hP : ∀ x mal, P x (.createPageMap mal)) : ∃ m taken k,
    PageMap.createPageMap sampleImage.phys quietMalloc (sampleStart.ram 2048) sampleStart =
      .ok (m, taken, k) ∧ Supply k 507 ∧
    PagingReaches sampleImage P ((⟨sampleStart, [], ∅⟩ : Paging).keep k [m]) := by
  obtain ⟨m, taken, k, hcreate, hs⟩ := createPageMap_supply sampleImage.phys (sampleStart.ram 2048)
    sampleStart_supply
  refine ⟨m, taken, k, hcreate, hs, .step (.start (fourMegMem fun _ _ ↦ 0#64)
    sampleStart_supply.hint fun t hmem ↦ ?_) (hP _ quietMalloc) ?_⟩
  · have hlt := (sampleStart_free hmem).2
    have hge := sampleImage_frame_ge t
    omega
  · show (do
      let (m, _, k) ← PageMap.createPageMap sampleImage.phys quietMalloc (sampleStart.ram 2048)
        sampleStart
      return (⟨sampleStart, [], ∅⟩ : Paging).keep k ([] ++ [m])) = _
    rw [hcreate]
    rfl

theorem kernel_half_shared_one_process : ∃ x m,
    PagingReaches sampleImage (fun x c ↦ c.Respects x) x ∧ m ∈ x.maps ∧
      KernelHalfShared sampleImage x := by
  obtain ⟨m, taken, k, -, -, hr⟩ :=
    sampleStart_process (P := fun x c ↦ c.Respects x) fun _ _ ↦ trivial
  exact ⟨_, m, hr, List.mem_singleton_self m, kernel_half_shared hr⟩

/-! ## A directory that is remapped -/

/-- Mapping a page that is in use anew uses nothing up. -/
theorem KernelMem.Supply.remap {k : KernelMem} {n : Nat} (hs : Supply k n) (frame : U64)
    {virt : U64} {f : Nat} (hv : k.heap.translate virt = some f) :
    Supply { k with
      heap := KernelHeap.kernelMapVirtualMemory4k kernelFlags 1 frame virt k.heap } n := by
  obtain ⟨-, -, hdir, -, hused, -⟩ := translate_eq_some.mp hv
  refine ⟨⟨hs.hint, hs.heapInv.map_one hdir⟩, hs.blocks, hs.pages.trans ?_⟩
  refine Set.ncard_le_ncard (fun p hp ↦ ⟨hp.1, ?_⟩) (freePages_finite _)
  have hne : p ≠ heapIndex virt := by
    rintro rfl
    have hfree := hp.2
    rw [hused] at hfree
    cases hfree
  rw [entry_map_one, if_neg hne]
  exact hp.2

/-- And the page is then where it was mapped to. -/
theorem KernelHeap.translate_remap {h : KernelHeap} (frame : U64) {virt : U64} {f : Nat}
    (hv : h.translate virt = some f) :
    (KernelHeap.kernelMapVirtualMemory4k kernelFlags 1 frame virt h).translate virt =
      some (frameOf frame) := by
  obtain ⟨h4, h3, hdir, hl, -, -⟩ := translate_eq_some.mp hv
  rw [translate_eq_some, entry_map_one, if_pos rfl, present_setPageFrame, frameOf_setPageFrame]
  exact ⟨h4, h3, hdir, hl, by decide, rfl⟩

/-- The flags of a user's page that is cached as the frame buffer is; at any level but the last, the
hardware takes `PAGE_PAT` for the page-size bit. -/
def patFlags : U64 := userFlags ||| pde2M

/-- `map_virtual_memory_4k`, when the first directory's pointer is mapped to block `d` and the
sixth word there is zero. -/
theorem mapVirtualMemory4k_through (phys : PhysOf) {k : KernelMem} {m : PageMap} {d n : Nat}
    (hs : Supply k (n + 1)) (hdir : k.heap.translate (m.pageDirs 0) = some d)
    (howned : d ∉ k.blocks.freeBlocks) (hzero : k.ram d 5 = 0#64) :
    ∃ m' taken k' b, PageMap.mapVirtualMemory4k phys patFlags 1 0#64 0xA00000#64 m k =
        .ok (m', taken, k') ∧ m'.pml4Phys = m.pml4Phys ∧ b ∈ k.blocks.freeBlocks ∧
      k'.ram d 5 = tableEntry 0#64 b ∧ k'.ram b 0 = setPageFrame patFlags 0#64 ∧
      ∀ f, f ≠ d → f ≠ b → k'.ram f = k.ram f := by
  obtain ⟨virt, b, k₁, hpage, hfresh, -⟩ := hs.mapFreshPage phys
  have hb := hfresh.least.1
  have hne : d ≠ b := fun heq ↦ howned (heq ▸ hb)
  have htable := createPageTable_of_fresh 5 hdir howned hpage hfresh
  have hensure : PageMap.ensurePageTable phys 0 5 m k = .ok (m.setPageTable 0 5 virt, [blockAddr b],
      { k₁ with ram := tableRam k.ram d 5 b }) := by
    simp only [PageMap.ensurePageTable, load_eq hdir, hzero, Except.bind, bind]
    exact htable
  have hptr : ({ k₁ with ram := tableRam k.ram d 5 b } : KernelMem).heap.translate
      ((m.setPageTable 0 5 virt).pageTables 0 5) = some b := by
    rw [pageTables_setPageTable, if_pos ⟨rfl, rfl⟩]
    exact hfresh.translate_eq
  have hstore := store_eq hptr 0 (setPageFrame patFlags 0#64)
  have hnull : m.pageDirs 0 ≠ 0#64 := by
    intro h0
    rw [h0, translate_eq_some] at hdir
    exact absurd hdir.1 (by decide)
  have hidx : pdptIndex 0xA00000#64 = 0 ∧ pdeIndex 0xA00000#64 = 5 ∧ ptIndex 0xA00000#64 = 0 := by
    decide
  let words := Function.update (tableRam k.ram d 5 b b) 0 (setPageFrame patFlags 0#64)
  refine ⟨m.setPageTable 0 5 virt, [blockAddr b] ++ [],
    { k₁ with ram := Function.update (tableRam k.ram d 5 b) b words }, b, ?_, rfl, hb, ?_, ?_,
    fun f hd hfb ↦ ?_⟩
  · rw [PageMap.mapVirtualMemory4k, PageMap.mapPage, if_neg (by decide), hidx.1, hidx.2.1,
      hidx.2.2, if_neg hnull]
    simp only [hensure, hstore, PageMap.mapVirtualMemory4k, Except.bind, bind, pure, Except.pure]
    rfl
  · simp only [Function.update_of_ne hne, tableRam_entry, hzero]
  · simp only [words, Function.update_self]
  · simp only [Function.update_of_ne hfb]
    exact funext fun l ↦ tableRam_other k.ram hfb fun h ↦ hd h.1

/-- **A directory mapped elsewhere splits the kernel's half.**  The page at which a process's first
directory is mapped is mapped to its PML4; the next page of the process then goes there.  For that
process, and for its user, a gigabyte at PML4 index 5 is now mapped, and not for the kernel. -/
theorem remapped_directory_splits_kernel_half : ∃ x m,
    PagingReaches sampleImage (fun _ _ ↦ True) x ∧ m ∈ x.maps ∧
    walk entryFormat (sampleImage.hwRam x.mem) m.pml4Frame (walkPath 0x28000000000#64) =
      .large 2 (setPageFrame patFlags 0#64) ∧
    (∀ e ∈ words entryFormat (sampleImage.hwRam x.mem) m.pml4Frame (walkPath 0x28000000000#64),
      e &&& pageUser ≠ 0#64) ∧
    walk entryFormat (sampleImage.hwRam x.mem) (sampleImage.frame .pml4)
      (walkPath 0x28000000000#64) = .absent ∧
    ¬KernelHalfShared sampleImage x := by
  obtain ⟨m, taken, k, hcreate, hs, hr⟩ :=
    sampleStart_process (P := fun _ _ ↦ True) fun _ _ ↦ trivial
  have hk := sampleStart_supply.toKernelInv
  have hc := (createPageMap_spec hk hcreate).2
  obtain ⟨hw, hframes, -, hrow⟩ := createPageMap_fresh hk hcreate
  have hroot : sampleStart.ram (sampleImage.frame .pml4) = sampleImage.kernelPml4 := by
    simp only [sampleStart, KernelImage.initializeVirtualMemory,
      sampleImage.tableAt_eq_some.mpr rfl]
  have hpml4 : m.pml4Frame < 1280 := (sampleStart_free (hframes ⟨.pml4, trivial, rfl⟩)).2
  have hframe : frameOf m.pml4Phys = m.pml4Frame := by
    have hlt := hpml4
    rw [pml4Frame, toNat_shiftRight_12] at hlt ⊢
    rw [frameOf_eq, Nat.mod_eq_of_lt (by omega)]
  -- the page of the directory is mapped to the PML4
  have hptr := hc.inv.dir_ptr 0 (by decide)
  have hdir := translate_remap m.pml4Phys hptr
  rw [hframe] at hdir
  have hzero : k.ram m.pml4Frame 5 = 0#64 := (hrow 5 (by decide)).trans (congrFun hroot 5)
  obtain ⟨m', taken', k', b, hmap, hphys, hb, hentry, hpage, hrest⟩ :=
    mapVirtualMemory4k_through sampleImage.phys (hs.remap m.pml4Phys hptr) hdir
      (hc.inv.owned .pml4 trivial) hzero
  have hb' := sampleStart_free (hw.freeBlocks_subset hb)
  have hpml4' : m'.pml4Frame = m.pml4Frame := by rw [pml4Frame, hphys, pml4Frame]
  let x₂ : Paging := { (⟨sampleStart, [], ∅⟩ : Paging).keep k [m] with
    mem := { k with
      heap := KernelHeap.kernelMapVirtualMemory4k kernelFlags 1 m.pml4Phys (m.pageDirs 0) k.heap } }
  have hr₂ : PagingReaches sampleImage (fun _ _ ↦ True) x₂ := .step hr trivial
    (show Paging.step sampleImage _ (.kernelMapVirtualMemory4k kernelFlags 1 m.pml4Phys
      (m.pageDirs 0)) = _ from rfl)
  have hcall : x₂.step sampleImage (.mapVirtualMemory4k 0 patFlags 1 0#64 0xA00000#64) =
      .ok (x₂.keep k' [m']) := by
    show (do
      let (m, _, k) ← PageMap.mapVirtualMemory4k sampleImage.phys patFlags 1 0#64 0xA00000#64 m
        x₂.mem
      return x₂.keep k ([m].set 0 m)) = _
    rw [hmap]
    rfl
  have hr₃ := PagingReaches.step hr₂ trivial hcall
  -- neither block is one of the kernel's own
  have hother : ∀ f < 1280, sampleImage.hwRam k' f = k'.ram f := by
    intro f hf
    refine sampleImage.hwRam_other fun t heq ↦ ?_
    have hge := sampleImage_frame_ge t
    omega
  have hpath : walkPath 0x28000000000#64 = [5, 0, 0, 0] := by decide
  have hword : sampleImage.hwRam k' m'.pml4Frame 5 = tableEntry 0#64 b := by
    rw [hpml4', hother _ hpml4]
    exact hentry
  have hword' : sampleImage.hwRam k' b 0 = setPageFrame patFlags 0#64 := by
    rw [hother b hb'.2]
    exact hpage
  have hnext : entryFormat.frame (tableEntry 0#64 b) = b := frameOf_tableEntry _ (by omega)
  have hwalk : walk entryFormat (sampleImage.hwRam k') m'.pml4Frame [5, 0, 0, 0] =
      .large 2 (setPageFrame patFlags 0#64) := by
    rw [walk_table (by rw [hword]; exact present_tableEntry _ _) rfl, hword, hnext,
      walk_large (by rw [hword']; decide) (by rw [hword']; decide), hword']
    rfl
  have habsent : walk entryFormat (sampleImage.hwRam k') (sampleImage.frame .pml4) [5, 0, 0, 0] =
      .absent := by
    have hne : sampleImage.frame .pml4 ≠ m.pml4Frame ∧ sampleImage.frame .pml4 ≠ b := by
      have hge := sampleImage_frame_ge .pml4
      omega
    have hold : k.ram (sampleImage.frame .pml4) = sampleStart.ram (sampleImage.frame .pml4) :=
      hw.ram_frame _ (Set.notMem_empty _) fun hmem ↦ by
        have hlt := (sampleStart_free hmem).2
        have hge := sampleImage_frame_ge .pml4
        omega
    refine walk_absent ?_
    rw [sampleImage.hwRam_table .pml4 (by simp) (by simp), hrest _ hne.1 hne.2]
    show entryFormat.present (k.ram (sampleImage.frame .pml4) 5) = false
    rw [hold, hroot]
    rfl
  refine ⟨x₂.keep k' [m'], m', hr₃, List.mem_singleton_self m', ?_, ?_, ?_, fun hshared ↦ ?_⟩
  · rw [hpath]
    exact hwalk
  · rw [hpath]
    have huser : tableEntry 0#64 b &&& pageUser = pageUser := by
      rw [tableEntry, BitVec.and_or_distrib_right, setPageFrame, BitVec.zero_and, BitVec.zero_or,
        BitVec.and_assoc, show pageFrame &&& pageUser = 0#64 by decide, BitVec.and_zero,
        BitVec.zero_or]
      decide
    show ∀ e ∈ words entryFormat (sampleImage.hwRam k') m'.pml4Frame [5, 0, 0, 0], _
    rw [words, hword, if_pos ⟨present_tableEntry _ _, rfl⟩, hnext, words, hword',
      if_neg (by decide)]
    refine List.forall_mem_cons.mpr ⟨?_, List.forall_mem_singleton.mpr (by decide)⟩
    rw [huser]
    decide
  · rw [hpath]
    exact habsent
  · have hsame := hshared.same_walk m' (List.mem_singleton_self m') 0x28000000000#64 (by decide)
    rw [hpath] at hsame
    have hsame' := hwalk.symm.trans (hsame.trans habsent)
    cases hsame'

end Borrrdex
