import Borrrdex.Memory.HeapRuns
import Borrrdex.Memory.LeastFreeBlock

/-!
# Backing heap pages with physical blocks

`liballoc_alloc` and `liballoc_free` are where the two allocators of the kernel meet.  The first
takes a run of heap pages and a physical block for each; the second has only the address, and
finds the blocks again by decoding the page-table entries.  So it gives back the right blocks only
if `virtual_to_physical_addr` undoes what `kernel_map_virtual_memory_4k` encoded, which it does for
frames below 4 GiB, the only ones `allocate_physical_block` hands out.

Both functions here also return the blocks they took or gave back, in order.  The source does not:
the lists are what the statements about them are about.
-/

set_option autoImplicit false

namespace Borrrdex

/-- The memory the kernel manages: the physical allocator, the heap's page tables, and the
contents of the physical blocks, word by word. -/
structure KernelMem where
  /-- The physical allocator. -/
  blocks : PhysAllocator
  /-- The page tables of the kernel heap. -/
  heap : KernelHeap
  /-- The words of a physical block. -/
  ram : Nat → Nat → U64

namespace KernelMem

open KernelHeap PhysAllocator

/-- The flags `kernel_map_virtual_memory_4k` defaults to. -/
def kernelFlags : U64 := tablePresent ||| tableWriteable

/-- The loop of `liballoc_alloc`: `n` pages are left, and page `i` is next. -/
def backPages (addr : U64) : Nat → Nat → KernelMem → Except Halt (List U64 × KernelMem)
  | 0, _, k => .ok ([], k)
  | n + 1, i, k =>
    match k.blocks.allocatePhysicalBlock with
    | .error e => .error e
    | .ok (frame, blocks) =>
      match backPages addr n (i + 1)
        { k with
          blocks := blocks
          heap := kernelMapVirtualMemory4k kernelFlags 1 frame (pageAt addr i) k.heap } with
      | .error e => .error e
      | .ok (taken, k') => .ok (frame :: taken, k')

/-- `liballoc_alloc`: the address, and the blocks taken. -/
def liballocAlloc (phys : PhysOf) (pages : Nat) (k : KernelMem) :
    Except Halt (U64 × List U64 × KernelMem) :=
  match kernelAllocate4kPages phys pages k.heap with
  | .error e => .error e
  | .ok (addr, heap) =>
    match backPages addr pages 0 { k with heap := heap } with
    | .error e => .error e
    | .ok (taken, k') => .ok (addr, taken, k')

/-- The loop of `liballoc_free`: `n` pages are left, and page `i` is next. -/
def releasePages (addr : U64) : Nat → Nat → KernelMem → Except Halt (List U64 × KernelMem)
  | 0, _, k => .ok ([], k)
  | n + 1, i, k =>
    match k.blocks.freePhysicalBlock (k.heap.virtualToPhysicalAddr (pageAt addr i)) with
    | .error e => .error e
    | .ok blocks =>
      match releasePages addr n (i + 1) { k with blocks := blocks } with
      | .error e => .error e
      | .ok (given, k') => .ok (k.heap.virtualToPhysicalAddr (pageAt addr i) :: given, k')

/-- `liballoc_free`: the blocks given back. -/
def liballocFree (addr : U64) (pages : Nat) (k : KernelMem) :
    Except Halt (List U64 × KernelMem) :=
  match releasePages addr pages 0 k with
  | .error e => .error e
  | .ok (given, k') => .ok (given, { k' with heap := kernelFree4kPages pages addr k'.heap })

/-! ## The two loops -/

/-- The pages `liballoc_alloc` backs get blocks that were not handed out, each a different one,
and nothing else changes. -/
theorem backPages_spec {regions : List UsableRegion} {addr : U64} {n : Nat} :
    ∀ {i : Nat} {k k' : KernelMem} {taken : List U64} {held : Finset Nat},
      i + n ≤ heapPages → Refines regions k.blocks held →
      backPages addr n i k = .ok (taken, k') →
      ∃ bs : List Nat, bs.length = n ∧ taken = bs.map blockAddr ∧ bs.Nodup ∧
        (∀ b ∈ bs, b ∉ held) ∧ Refines regions k'.blocks (held ∪ bs.toFinset) ∧
        k'.heap.dir = k.heap.dir ∧ k'.ram = k.ram ∧
        (∀ j (hj : j < bs.length), k'.heap.entry (heapIndex (pageAt addr (i + j))) =
          setPageFrame kernelFlags (blockAddr bs[j])) ∧
        ∀ p, (∀ j < n, p ≠ heapIndex (pageAt addr (i + j))) →
          k'.heap.entry p = k.heap.entry p := by
  induction n with
  | zero =>
    intro i k k' taken held _ href hcall
    cases hcall
    exact ⟨[], rfl, rfl, List.nodup_nil, by simp, by simpa using href, rfl, rfl, by simp,
      fun _ _ ↦ rfl⟩
  | succ n ih =>
    intro i k k' taken held hin href hcall
    rw [backPages] at hcall
    rcases href.allocate with ⟨b, blocks, hb, hblock, href'⟩ | ⟨-, hblock⟩
    · rw [hblock] at hcall
      simp only [] at hcall
      split at hcall
      · cases hcall
      · next taken' k'' hrest =>
        cases hcall
        obtain ⟨bs, hlen, htaken, hnodup, hfresh, href'', hdir, hram, hset, hother⟩ :=
          ih (by omega) href' hrest
        have hbs : b ∉ bs := fun hmem ↦ hfresh b hmem (Finset.mem_insert_self b held)
        refine ⟨b :: bs, by simp [hlen], by simp [htaken], List.nodup_cons.mpr ⟨hbs, hnodup⟩,
          ?_, ?_, hdir, hram, ?_, ?_⟩
        · intro c hc
          rcases List.mem_cons.mp hc with rfl | hc
          · exact hb.1.2
          · exact fun hheld ↦ hfresh c hc (Finset.mem_insert_of_mem hheld)
        · rwa [List.toFinset_cons, Finset.union_insert, ← Finset.insert_union]
        · intro j hj
          cases j with
          | zero =>
            -- the pages that follow select other entries
            have hlater : ∀ j < n, heapIndex (pageAt addr i) ≠
                heapIndex (pageAt addr (i + 1 + j)) := by
              intro j hj
              rw [heapIndex_pageAt, heapIndex_pageAt]
              rw [heapPages] at hin ⊢
              omega
            rw [Nat.add_zero, hother _ hlater, entry_map_one, if_pos rfl, List.getElem_cons_zero]
          | succ j =>
            rw [show i + (j + 1) = i + 1 + j by omega, List.getElem_cons_succ]
            exact hset j (by simpa using hj)
        · intro p hp
          have hfirst := hp 0 (by omega)
          rw [Nat.add_zero] at hfirst
          rw [hother p fun j hj ↦ by
            rw [show i + 1 + j = i + (j + 1) by omega]
            exact hp (j + 1) (by omega), entry_map_one, if_neg hfirst]
    · rw [hblock] at hcall
      cases hcall

/-- The blocks `liballoc_free` gives back are those the entries frame. -/
theorem releasePages_spec {regions : List UsableRegion} {addr : U64} {g : Nat → Nat} {n : Nat} :
    ∀ {i : Nat} {k : KernelMem} {held : Finset Nat}, Refines regions k.blocks held →
      (∀ j, i ≤ j → j < i + n → k.heap.virtualToPhysicalAddr (pageAt addr j) = blockAddr (g j) ∧
        g j ∈ held) →
      (∀ j l, i ≤ j → j < i + n → i ≤ l → l < i + n → g j = g l → j = l) →
      ∃ blocks, releasePages addr n i k =
          .ok ((List.range' i n).map fun j ↦ blockAddr (g j), { k with blocks := blocks }) ∧
        Refines regions blocks (held \ ((List.range' i n).map g).toFinset) := by
  induction n with
  | zero =>
    intro i k held href _ _
    exact ⟨k.blocks, rfl, by simpa using href⟩
  | succ n ih =>
    intro i k held href hg hinj
    obtain ⟨hvtp, hheld⟩ := hg i (by omega) (by omega)
    have hlt : g i < 2 ^ 52 := (href.frame_lt hheld).trans (by decide)
    have hheld' : (blockAddr (g i) >>> 12).toNat ∈ held := by rwa [blockAddr_shiftRight hlt]
    obtain ⟨blocks, hfree, href'⟩ := href.free hheld'
    rw [blockAddr_shiftRight hlt] at href'
    obtain ⟨blocks', hrest, href''⟩ := ih (i := i + 1)
      (k := { k with blocks := blocks }) href'
      (fun j h1 h2 ↦ ⟨(hg j (by omega) (by omega)).1, Finset.mem_erase.mpr
        ⟨fun heq ↦ by have := hinj j i (by omega) (by omega) (by omega) (by omega) heq; omega,
          (hg j (by omega) (by omega)).2⟩⟩)
      (fun j l h1 h2 h3 h4 ↦ hinj j l (by omega) (by omega) (by omega) (by omega))
    refine ⟨blocks', ?_, ?_⟩
    · simp only [releasePages, hvtp, hfree, hrest, List.range'_succ, List.map_cons]
    · rw [List.range'_succ, List.map_cons, List.toFinset_cons, Finset.sdiff_insert,
        ← Finset.erase_sdiff_comm]
      exact href''

/-- What `liballoc_alloc` did, when it returned `addr`: it marked `n` free heap pages from page
`start` on, and made them frame the blocks `bs`, none of which was handed out before. -/
structure ChunkAllocated (regions : List UsableRegion) (held : Finset Nat) (n : Nat)
    (k : KernelMem) (addr : U64) (k' : KernelMem) (start : Nat) (bs : List Nat) : Prop where
  index_eq : heapIndex addr = start
  inside : start + n ≤ heapPages
  length_eq : bs.length = n
  nodup : bs.Nodup
  fresh : ∀ b ∈ bs, b ∉ held
  refines : Refines regions k'.blocks (held ∪ bs.toFinset)
  was_free : ∀ p, start ≤ p → p < start + n → present (k.heap.entry p) = false
  new_frame : ∀ j (hj : j < bs.length), frameOf (k'.heap.entry (start + j)) = bs[j]
  old_entry : ∀ p, ¬(start ≤ p ∧ p < start + n) → k'.heap.entry p = k.heap.entry p
  live : ∀ live, LiveInv k.heap live → LiveInv k'.heap ((addr, n) :: live)
  dir_mono : ∀ d, present (k.heap.dir d) = true → k'.heap.dir d = k.heap.dir d
  ram_eq : k'.ram = k.ram

theorem liballocAlloc_spec {regions : List UsableRegion} {phys : PhysOf} {held : Finset Nat}
    {k k' : KernelMem} (href : Refines regions k.blocks held) (hinv : HeapInv k.heap) {n : Nat}
    (hn : 1 ≤ n) {addr : U64} {taken : List U64}
    (hcall : liballocAlloc phys n k = .ok (addr, taken, k')) :
    ∃ start bs, taken = bs.map blockAddr ∧ ChunkAllocated regions held n k addr k' start bs := by
  rw [liballocAlloc] at hcall
  split at hcall
  · cases hcall
  next addr' heap hheap =>
  split at hcall
  · cases hcall
  next taken' k'' hback =>
  cases hcall
  obtain ⟨start, ha⟩ := kernelAllocate4kPages_spec hinv hn hheap
  have hin := ha.inside
  obtain ⟨bs, hlen, htaken, hnodup, hfresh, href', hdir, hram, hset, hother⟩ :=
    backPages_spec (i := 0) (k := { k with heap := heap }) (by omega) href hback
  have hidx : heapIndex addr = start := by rw [ha.addr_eq, heapIndex_heapPage (by omega)]
  have hpage : ∀ j < n, heapIndex (pageAt addr (0 + j)) = start + j := fun j hj ↦ by
    rw [Nat.zero_add, heapIndex_pageAt_of_lt (by omega), hidx]
  have hold : ∀ p, ¬(start ≤ p ∧ p < start + n) → k'.heap.entry p = heap.entry p :=
    fun p hp ↦ hother p fun j hj ↦ by rw [hpage j hj]; omega
  refine ⟨start, bs, htaken, ⟨hidx, hin, hlen, hnodup, hfresh, href', ha.was_free, ?_, ?_, ?_, ?_,
    hram⟩⟩
  · intro j hj
    have hlt := href'.frame_lt
      (Finset.mem_union_right _ (List.mem_toFinset.mpr (List.getElem_mem hj)))
    rw [← hpage j (by omega), hset j hj, frameOf_setPageFrame,
      frameOf_blockAddr (hlt.trans (by decide))]
  · intro p hp
    rw [hold p hp, ha.entry_eq p, if_neg hp]
  · intro live hlive
    refine (ha.liveInv hn hlive).congr hdir fun p ↦ ?_
    by_cases hp : start ≤ p ∧ p < start + n
    · obtain ⟨j, rfl⟩ := Nat.exists_eq_add_of_le hp.1
      rw [← hpage j (by omega), hset j (by omega), present_setPageFrame, hpage j (by omega),
        ha.entry_eq, if_pos hp]
      decide
    · rw [hold p hp]
  · intro d hd
    rw [hdir]
    exact ha.dir_mono d hd

/-! ## Runs -/

/-- The runs of the two functions from a state `k₀`: the live chunks, as the address and the number
of pages of each, and the physical addresses the calls have taken and not given back. -/
inductive LiballocReaches (phys : PhysOf) (k₀ : KernelMem) :
    KernelMem → List (U64 × Nat) → Finset U64 → Prop
  | start : LiballocReaches phys k₀ k₀ [] ∅
  | alloc {k k' : KernelMem} {chunks : List (U64 × Nat)} {out : Finset U64} {n : Nat} {addr : U64}
      {taken : List U64} (hr : LiballocReaches phys k₀ k chunks out) (hn : 1 ≤ n)
      (hcall : liballocAlloc phys n k = .ok (addr, taken, k')) :
      LiballocReaches phys k₀ k' ((addr, n) :: chunks) (out ∪ taken.toFinset)
  | free {k k' : KernelMem} {chunks : List (U64 × Nat)} {out : Finset U64} {x : U64 × Nat}
      {given : List U64} (hr : LiballocReaches phys k₀ k chunks out) (hx : x ∈ chunks)
      (hcall : liballocFree x.1 x.2 k = .ok (given, k')) :
      LiballocReaches phys k₀ k' (chunks.erase x) (out \ given.toFinset)

/-- The heap pages of the live chunks. -/
def chunkPages (chunks : List (U64 × Nat)) : Set Nat := {p | ∃ x ∈ chunks, p ∈ rangePages x}

/-- **What every run keeps**, relative to the state `k₀` it started in, with `held₀` handed out and
`live₀` live: the frames of the chunks' pages are all different, they are the blocks `out` that the
calls hold, and neither allocator sees any other difference from `k₀`. -/
structure ChunkInv (regions : List UsableRegion) (held₀ : Finset Nat) (live₀ : List (U64 × Nat))
    (k₀ k : KernelMem) (chunks : List (U64 × Nat)) (out : Finset Nat) : Prop where
  refines : Refines regions k.blocks (held₀ ∪ out)
  apart : Disjoint held₀ out
  live : LiveInv k.heap (chunks ++ live₀)
  frames : ∀ b, b ∈ out ↔ ∃ p ∈ chunkPages chunks, frameOf (k.heap.entry p) = b
  inj : Set.InjOn (fun p ↦ frameOf (k.heap.entry p)) (chunkPages chunks)
  was_free : ∀ p ∈ chunkPages chunks, present (k₀.heap.entry p) = false
  rest : ∀ p, p ∉ chunkPages chunks → present (k.heap.entry p) = present (k₀.heap.entry p)

theorem chunkPages_cons (x : U64 × Nat) (chunks : List (U64 × Nat)) :
    chunkPages (x :: chunks) = rangePages x ∪ chunkPages chunks := by
  ext p
  simp [chunkPages]

theorem ChunkInv.chunks_used {regions : List UsableRegion} {held₀ out : Finset Nat}
    {live₀ chunks : List (U64 × Nat)} {k₀ k : KernelMem}
    (hc : ChunkInv regions held₀ live₀ k₀ k chunks out) {p : Nat} (hp : p ∈ chunkPages chunks) :
    present (k.heap.entry p) = true := by
  obtain ⟨x, hx, hpx⟩ := hp
  exact hc.live.used x (List.mem_append_left _ hx) p hpx

/-- Allocating a chunk adds its pages and the blocks they frame. -/
theorem ChunkInv.alloc {regions : List UsableRegion} {held₀ out : Finset Nat}
    {live₀ chunks : List (U64 × Nat)} {k₀ k k' : KernelMem}
    (hc : ChunkInv regions held₀ live₀ k₀ k chunks out) {n start : Nat} {addr : U64}
    {bs : List Nat} (ha : ChunkAllocated regions (held₀ ∪ out) n k addr k' start bs) :
    ChunkInv regions held₀ live₀ k₀ k' ((addr, n) :: chunks) (out ∪ bs.toFinset) := by
  have hlen := ha.length_eq
  have hrange : ∀ p, p ∈ rangePages (addr, n) ↔ start ≤ p ∧ p < start + n := by
    intro p
    show heapIndex addr ≤ p ∧ p < heapIndex addr + n ↔ _
    rw [ha.index_eq]
  have hnew : ∀ p ∈ rangePages (addr, n), ∃ j, ∃ hj : j < bs.length, p = start + j ∧
      frameOf (k'.heap.entry p) = bs[j] := by
    intro p hp
    obtain ⟨h1, h2⟩ := (hrange p).mp hp
    obtain ⟨j, rfl⟩ := Nat.exists_eq_add_of_le h1
    exact ⟨j, by omega, rfl, ha.new_frame j (by omega)⟩
  have hnotnew : ∀ p ∈ chunkPages chunks, ¬(start ≤ p ∧ p < start + n) := by
    intro p hp hpn
    have hfree := ha.was_free p hpn.1 hpn.2
    rw [hc.chunks_used hp] at hfree
    cases hfree
  have hold : ∀ p ∈ chunkPages chunks, frameOf (k'.heap.entry p) = frameOf (k.heap.entry p) :=
    fun p hp ↦ by rw [ha.old_entry p (hnotnew p hp)]
  -- a block of `bs` was not handed out, so no old page frames it
  have hcross : ∀ p ∈ rangePages (addr, n), ∀ q ∈ chunkPages chunks,
      frameOf (k'.heap.entry p) ≠ frameOf (k'.heap.entry q) := by
    intro p hp q hq heq
    obtain ⟨j, hj, -, hframe⟩ := hnew p hp
    have hout : bs[j] ∈ out := by
      rw [← hframe, heq, hold q hq]
      exact (hc.frames _).mpr ⟨q, hq, rfl⟩
    exact ha.fresh _ (List.getElem_mem hj) (Finset.mem_union_right _ hout)
  refine ⟨?_, ?_, ha.live _ hc.live, ?_, ?_, ?_, ?_⟩
  · rw [← Finset.union_assoc]
    exact ha.refines
  · rw [Finset.disjoint_union_right]
    refine ⟨hc.apart, Finset.disjoint_right.mpr fun b hb hheld ↦ ?_⟩
    exact ha.fresh b (List.mem_toFinset.mp hb) (Finset.mem_union_left _ hheld)
  · intro b
    rw [Finset.mem_union, List.mem_toFinset, hc.frames b, chunkPages_cons]
    constructor
    · rintro (⟨p, hp, rfl⟩ | hb)
      · exact ⟨p, .inr hp, hold p hp⟩
      · obtain ⟨j, hj, rfl⟩ := List.getElem_of_mem hb
        exact ⟨start + j, .inl ((hrange _).mpr ⟨by omega, by omega⟩), ha.new_frame j hj⟩
    · rintro ⟨p, hp | hp, rfl⟩
      · obtain ⟨j, hj, -, hframe⟩ := hnew p hp
        rw [hframe]
        exact .inr (List.getElem_mem hj)
      · rw [hold p hp]
        exact .inl ⟨p, hp, rfl⟩
  · rw [chunkPages_cons]
    rintro p (hp | hp) q (hq | hq) heq
    · obtain ⟨i, hi, rfl, hi'⟩ := hnew p hp
      obtain ⟨j, hj, rfl, hj'⟩ := hnew q hq
      simp only [hi', hj'] at heq
      rw [ha.nodup.getElem_inj_iff.mp heq]
    · exact absurd heq (hcross p hp q hq)
    · exact absurd heq.symm (hcross q hq p hp)
    · simp only [hold p hp, hold q hq] at heq
      exact hc.inj hp hq heq
  · rw [chunkPages_cons]
    rintro p (hp | hp)
    · obtain ⟨h1, h2⟩ := (hrange p).mp hp
      rw [← hc.rest p fun hpc ↦ hnotnew p hpc ⟨h1, h2⟩]
      exact ha.was_free p h1 h2
    · exact hc.was_free p hp
  · intro p hp
    rw [chunkPages_cons, Set.mem_union, not_or, hrange] at hp
    rw [ha.old_entry p hp.1]
    exact hc.rest p hp.2

/-- The pages of the chunks that stay when one is freed. -/
theorem mem_chunkPages_erase {h : KernelHeap} {chunks live₀ : List (U64 × Nat)}
    (hl : LiveInv h (chunks ++ live₀)) {x : U64 × Nat} (hx : x ∈ chunks) {p : Nat} :
    p ∈ chunkPages (chunks.erase x) ↔ p ∈ chunkPages chunks ∧ p ∉ rangePages x := by
  have hapart : (x :: chunks.erase x).Pairwise fun x y ↦ Disjoint (rangePages x) (rangePages y) :=
    (List.perm_cons_erase hx).pairwise (List.pairwise_append.mp hl.apart).1
      fun {_ _} hxy ↦ hxy.symm
  rw [List.pairwise_cons] at hapart
  constructor
  · rintro ⟨y, hy, hp⟩
    exact ⟨⟨y, List.mem_of_mem_erase hy, hp⟩, Set.disjoint_right.mp (hapart.1 y hy) hp⟩
  · rintro ⟨⟨y, hy, hp⟩, hpx⟩
    have hne : y ≠ x := fun heq ↦ hpx (heq ▸ hp)
    exact ⟨y, (List.mem_erase_of_ne hne).mpr hy, hp⟩

/-- The address `virtual_to_physical_addr` finds for a page of a chunk is that of the block the
page's entry frames. -/
theorem ChunkInv.virtualToPhysicalAddr_eq {regions : List UsableRegion} {held₀ out : Finset Nat}
    {live₀ chunks : List (U64 × Nat)} {k₀ k : KernelMem}
    (hc : ChunkInv regions held₀ live₀ k₀ k chunks out) {x : U64 × Nat} (hx : x ∈ chunks)
    {i : Nat} (hi : i < x.2) :
    k.heap.virtualToPhysicalAddr (pageAt x.1 i) =
        blockAddr (frameOf (k.heap.entry (heapIndex (pageAt x.1 i)))) ∧
      frameOf (k.heap.entry (heapIndex (pageAt x.1 i))) ∈ out ∧
      heapIndex (pageAt x.1 i) ∈ chunkPages chunks := by
  have hx' : x ∈ chunks ++ live₀ := List.mem_append_left _ hx
  have hpage : heapIndex (pageAt x.1 i) ∈ chunkPages chunks :=
    ⟨x, hx, (mem_rangePages_iff (hc.live.inside x hx')).mpr ⟨i, hi, rfl⟩⟩
  have hout := (hc.frames _).mpr ⟨_, hpage, rfl⟩
  refine ⟨KernelHeap.virtualToPhysicalAddr_eq hc.live.toHeapInv (hc.live.pml4Index_eq hx' hi) ?_,
    hout, hpage⟩
  exact hc.refines.frame_lt (Finset.mem_union_right _ hout)

/-- Freeing a chunk succeeds, and gives back the blocks its pages frame. -/
theorem ChunkInv.free {regions : List UsableRegion} {held₀ out : Finset Nat}
    {live₀ chunks : List (U64 × Nat)} {k₀ k : KernelMem}
    (hc : ChunkInv regions held₀ live₀ k₀ k chunks out) {x : U64 × Nat} (hx : x ∈ chunks) :
    ∃ (bs : List Nat) (k' : KernelMem), liballocFree x.1 x.2 k = .ok (bs.map blockAddr, k') ∧
      bs.toFinset ⊆ out ∧
      ChunkInv regions held₀ live₀ k₀ k' (chunks.erase x) (out \ bs.toFinset) := by
  have hin := hc.live.inside x (List.mem_append_left _ hx)
  have hspec := fun i hi ↦ hc.virtualToPhysicalAddr_eq hx (i := i) hi
  have hidx : ∀ i < x.2, heapIndex (pageAt x.1 i) = heapIndex x.1 + i := fun i hi ↦
    heapIndex_pageAt_of_lt (by omega)
  let g : Nat → Nat := fun i ↦ frameOf (k.heap.entry (heapIndex (pageAt x.1 i)))
  let bs : List Nat := (List.range' 0 x.2).map g
  have hbs : ∀ b, b ∈ bs.toFinset ↔ ∃ p ∈ rangePages x, frameOf (k.heap.entry p) = b := by
    intro b
    simp only [bs, List.mem_toFinset, List.mem_map, List.mem_range'_1, mem_rangePages_iff hin]
    constructor
    · rintro ⟨i, hi, rfl⟩
      exact ⟨_, ⟨i, by omega, rfl⟩, rfl⟩
    · rintro ⟨_, ⟨i, hi, rfl⟩, rfl⟩
      exact ⟨i, by omega, rfl⟩
  have hsub : bs.toFinset ⊆ out := by
    intro b hb
    obtain ⟨p, hp, rfl⟩ := (hbs b).mp hb
    exact (hc.frames _).mpr ⟨p, ⟨x, hx, hp⟩, rfl⟩
  obtain ⟨blocks, hrel, href⟩ := releasePages_spec (n := x.2) (i := 0) (g := g) hc.refines
    (fun j _ hj ↦ ⟨(hspec j (by omega)).1, Finset.mem_union_right _ (hspec j (by omega)).2.1⟩)
    (fun j l _ hj _ hl heq ↦ by
      have hjl := hc.inj (hspec j (by omega)).2.2 (hspec l (by omega)).2.2 heq
      rw [hidx j (by omega), hidx l (by omega)] at hjl
      omega)
  obtain ⟨-, -, hrest⟩ := kernelFree4kPages_spec x.2 x.1 k.heap
  have hentry : ∀ p, p ∉ rangePages x →
      (kernelFree4kPages x.2 x.1 k.heap).entry p = k.heap.entry p := fun p hp ↦
    hrest p fun i hi heq ↦ hp ((mem_rangePages_iff hin).mpr ⟨i, hi, heq⟩)
  have herase := fun p ↦ mem_chunkPages_erase hc.live hx (p := p)
  refine ⟨bs, { k with blocks := blocks, heap := kernelFree4kPages x.2 x.1 k.heap }, ?_, hsub,
    ?_, ?_, ?_, ?_, ?_, ?_, ?_⟩
  · simp only [liballocFree, hrel, bs, List.map_map]
    rfl
  · have hdisj : held₀ \ bs.toFinset = held₀ :=
      Finset.sdiff_eq_self_of_disjoint (hc.apart.mono_right hsub)
    rw [Finset.union_sdiff_distrib, hdisj] at href
    exact href
  · exact hc.apart.mono_right Finset.sdiff_subset
  · have hlive := hc.live.free (List.mem_append_left _ hx)
    rwa [List.erase_append_left _ hx] at hlive
  · intro b
    rw [Finset.mem_sdiff, hc.frames b, hbs b]
    constructor
    · rintro ⟨⟨p, hp, rfl⟩, hno⟩
      have hpx : p ∉ rangePages x := fun hpx ↦ hno ⟨p, hpx, rfl⟩
      exact ⟨p, (herase p).mpr ⟨hp, hpx⟩, by rw [hentry p hpx]⟩
    · rintro ⟨p, hp, rfl⟩
      obtain ⟨hpc, hpx⟩ := (herase p).mp hp
      rw [hentry p hpx]
      refine ⟨⟨p, hpc, rfl⟩, fun ⟨q, hq, heq⟩ ↦ hpx ?_⟩
      rwa [← hc.inj ⟨x, hx, hq⟩ hpc heq]
  · intro p hp q hq heq
    obtain ⟨hpc, hpx⟩ := (herase p).mp hp
    obtain ⟨hqc, hqx⟩ := (herase q).mp hq
    simp only [hentry p hpx, hentry q hqx] at heq
    exact hc.inj hpc hqc heq
  · exact fun p hp ↦ hc.was_free p ((herase p).mp hp).1
  · intro p hp
    by_cases hpx : p ∈ rangePages x
    · -- the entry is cleared, and the page was free before the chunk was allocated
      obtain ⟨-, hclear, -⟩ := kernelFree4kPages_spec x.2 x.1 k.heap
      rw [hc.was_free p ⟨x, hx, hpx⟩]
      obtain ⟨i, hi, rfl⟩ := (mem_rangePages_iff hin).mp hpx
      rw [hclear i hi]
      decide
    · rw [hentry p hpx]
      exact hc.rest p fun hpc ↦ hp ((herase p).mpr ⟨hpc, hpx⟩)

/-- Addresses of blocks below 4 GiB determine the blocks. -/
theorem blockAddr_injOn {regions : List UsableRegion} {a : PhysAllocator} {held out : Finset Nat}
    (href : Refines regions a (held ∪ out)) : Set.InjOn blockAddr (out : Set Nat) := by
  intro b hb c hc heq
  have hlt : ∀ d ∈ out, d < 2 ^ 52 := fun d hd ↦
    (href.frame_lt (Finset.mem_union_right _ hd)).trans (by decide)
  rw [← blockAddr_shiftRight (hlt b hb), ← blockAddr_shiftRight (hlt c hc), heq]

theorem toFinset_map_blockAddr (bs : List Nat) :
    (bs.map blockAddr).toFinset = bs.toFinset.image blockAddr := by
  ext a
  simp

/-- **The invariant along every run.** -/
theorem liballocReaches_chunkInv {regions : List UsableRegion} {phys : PhysOf}
    {held₀ : Finset Nat} {live₀ : List (U64 × Nat)} {k₀ k : KernelMem}
    (href : Refines regions k₀.blocks held₀) (hlive : LiveInv k₀.heap live₀)
    {chunks : List (U64 × Nat)} {taken : Finset U64}
    (hr : LiballocReaches phys k₀ k chunks taken) :
    ∃ out : Finset Nat, taken = out.image blockAddr ∧
      ChunkInv regions held₀ live₀ k₀ k chunks out := by
  induction hr with
  | start =>
    refine ⟨∅, by simp, by simpa using href, by simp, hlive, by simp [chunkPages],
      by simp [chunkPages], by simp [chunkPages], fun _ _ ↦ rfl⟩
  | alloc _ hn hcall ih =>
    obtain ⟨out, rfl, hc⟩ := ih
    obtain ⟨start, bs, rfl, ha⟩ := liballocAlloc_spec hc.refines hc.live.toHeapInv hn hcall
    refine ⟨out ∪ bs.toFinset, ?_, hc.alloc ha⟩
    rw [Finset.image_union, toFinset_map_blockAddr]
  | free _ hx hcall ih =>
    obtain ⟨out, rfl, hc⟩ := ih
    obtain ⟨bs, k', hcall', hsub, hc'⟩ := hc.free hx
    rw [hcall'] at hcall
    cases hcall
    refine ⟨out \ bs.toFinset, ?_, hc'⟩
    rw [Finset.image_sdiff_of_injOn (blockAddr_injOn hc.refines) hsub, toFinset_map_blockAddr]

/-- The allocator's state is determined, as far as the bitmap and the count go, by what is handed
out. -/
theorem bitmap_eq_of_refines {regions : List UsableRegion} {a a' : PhysAllocator}
    {held : Finset Nat} (h : Refines regions a held) (h' : Refines regions a' held) :
    (∀ i < physBitmapSizeDwords, a'.physMemBitmap i = a.physMemBitmap i) ∧
      a'.usedBlocks = a.usedBlocks := by
  refine ⟨fun i hi ↦ BitVec.eq_of_getLsbD_eq fun j hj ↦ ?_,
    h'.usedBlocks_eq.trans h.usedBlocks_eq.symm⟩
  rw [← Bitmap.bit_mul_add _ i hj, ← Bitmap.bit_mul_add _ i hj, ← Bool.not_inj_iff,
    Bool.eq_iff_iff, Bool.not_eq_true', Bool.not_eq_true', h.bit_iff _ (by omega),
    h'.bit_iff _ (by omega)]

/-- **No block lost, none used twice, along every run** of `liballoc_alloc` and `liballoc_free`
that starts in any reachable state of the two allocators.  Freeing a live chunk succeeds; the map
from the pages of the live chunks to physical addresses is injective, and its image is the set of
blocks the calls have taken and not returned; and when every chunk has been freed, the bitmap, the
count of used blocks and the present bits of the heap's tables are those of the start. -/
theorem liballoc_run_spec {regions : List UsableRegion} {phys : PhysOf} {held₀ : Finset Nat}
    {live₀ : List (U64 × Nat)} {k₀ k : KernelMem} {chunks : List (U64 × Nat)}
    {taken : Finset U64} (hin : ∀ r ∈ regions, r.Inside)
    (hblocks : Reaches regions k₀.blocks held₀) (hheap : HeapReaches phys k₀.heap live₀)
    (hr : LiballocReaches phys k₀ k chunks taken) :
    (∀ x ∈ chunks, ∃ given k', liballocFree x.1 x.2 k = .ok (given, k')) ∧
      (∀ x ∈ chunks, ∀ i < x.2, ∀ y ∈ chunks, ∀ j < y.2,
        k.heap.virtualToPhysicalAddr (pageAt x.1 i) = k.heap.virtualToPhysicalAddr (pageAt y.1 j) →
        pageAt x.1 i = pageAt y.1 j) ∧
      (∀ a, a ∈ taken ↔
        ∃ x ∈ chunks, ∃ i < x.2, k.heap.virtualToPhysicalAddr (pageAt x.1 i) = a) ∧
      (chunks = [] →
        (∀ i < physBitmapSizeDwords, k.blocks.physMemBitmap i = k₀.blocks.physMemBitmap i) ∧
        k.blocks.usedBlocks = k₀.blocks.usedBlocks ∧
        ∀ i < 512, ∀ j < 512, present (k.heap.tables i j) = present (k₀.heap.tables i j)) := by
  have href := reaches_refines hin hblocks
  obtain ⟨out, rfl, hc⟩ := liballocReaches_chunkInv href (heapReaches_liveInv hheap) hr
  refine ⟨fun x hx ↦ ?_, fun x hx i hi y hy j hj heq ↦ ?_, fun a ↦ ?_, fun hnil ↦ ?_⟩
  · obtain ⟨bs, k', hcall, -⟩ := hc.free hx
    exact ⟨_, k', hcall⟩
  · obtain ⟨hvx, hox, hpx⟩ := hc.virtualToPhysicalAddr_eq hx hi
    obtain ⟨hvy, hoy, hpy⟩ := hc.virtualToPhysicalAddr_eq hy hj
    rw [hvx, hvy] at heq
    have hframe := blockAddr_injOn hc.refines hox hoy heq
    exact hc.live.pageAt_inj (List.mem_append_left _ hx) (List.mem_append_left _ hy) hi hj
      (hc.inj hpx hpy hframe)
  · rw [Finset.mem_image]
    constructor
    · rintro ⟨b, hb, rfl⟩
      obtain ⟨p, ⟨x, hx, hp⟩, rfl⟩ := (hc.frames b).mp hb
      obtain ⟨i, hi, rfl⟩ :=
        (mem_rangePages_iff (hc.live.inside x (List.mem_append_left _ hx))).mp hp
      exact ⟨x, hx, i, hi, (hc.virtualToPhysicalAddr_eq hx hi).1⟩
    · rintro ⟨x, hx, i, hi, rfl⟩
      obtain ⟨hv, ho, -⟩ := hc.virtualToPhysicalAddr_eq hx hi
      exact ⟨_, ho, hv.symm⟩
  · subst hnil
    have hout : out = ∅ := by
      refine Finset.eq_empty_of_forall_notMem fun b hb ↦ ?_
      obtain ⟨p, ⟨x, hx, -⟩, -⟩ := (hc.frames b).mp hb
      cases hx
    have href' := hc.refines
    rw [hout, Finset.union_empty] at href'
    obtain ⟨hbitmap, hused⟩ := bitmap_eq_of_refines href href'
    refine ⟨hbitmap, hused, fun i hi j hj ↦ ?_⟩
    rw [← entry_mul_add _ hj, ← entry_mul_add _ hj]
    exact hc.rest _ fun ⟨x, hx, _⟩ ↦ by cases hx

/-- A machine with one usable block, block 32, after boot. -/
def oneBlockMem : KernelMem := ⟨boot [⟨0x20000, 0x1000⟩], KernelHeap.atInit, fun _ _ ↦ 0⟩

/-- It has one free block. -/
theorem freeBlocks_oneBlock : (boot [⟨0x20000, 0x1000⟩]).freeBlocks = {32} := by
  rw [(refines_boot (show ∀ r ∈ [(⟨0x20000, 0x1000⟩ : UsableRegion)], r.Inside by
    decide)).freeBlocks_eq]
  ext b
  simp only [Pool.available, pool, marked, UsableRegion.blocks, List.mem_singleton, exists_eq_left,
    Set.mem_ofPred_eq, Set.mem_singleton_iff, Finset.notMem_empty, not_false_eq_true, and_true]
  show 32 ≤ b ∧ b < 524480 ∧ 131072 / 4096 ≤ b ∧ b < 131072 / 4096 + (4096 + 4095) / 4096 ↔ _
  omega

/-- The first page of the heap gets that block. -/
theorem first_liballocAlloc : ∃ k, liballocAlloc (fun _ ↦ 0#64) 1 oneBlockMem =
    .ok (0xFFFFFFFFC0000000#64, [0x20000#64], k) := by
  obtain ⟨h', hheap⟩ := first_allocation
  have hin : ∀ r ∈ [(⟨0x20000, 0x1000⟩ : UsableRegion)], r.Inside := by decide
  rcases (refines_boot hin).toHintInv.allocate with
    ⟨b, blocks, hb, hblock, -⟩ | ⟨hempty, -⟩
  · rw [freeBlocks_oneBlock] at hb
    obtain rfl : b = 32 := hb.1
    refine ⟨⟨blocks, kernelMapVirtualMemory4k kernelFlags 1 (blockAddr 32)
      (pageAt 0xFFFFFFFFC0000000#64 0) h', fun _ _ ↦ 0⟩, ?_⟩
    simp only [liballocAlloc, oneBlockMem, hheap, backPages, hblock]
    rfl
  · rw [freeBlocks_oneBlock] at hempty
    exact absurd hempty (Set.singleton_ne_empty 32)

theorem liballoc_run_spec_first_page : ∃ k,
    LiballocReaches (fun _ ↦ 0#64) oneBlockMem k [(0xFFFFFFFFC0000000#64, 1)] {0x20000#64} ∧
      k.heap.virtualToPhysicalAddr 0xFFFFFFFFC0000000#64 = 0x20000#64 := by
  obtain ⟨k, hcall⟩ := first_liballocAlloc
  have hr := LiballocReaches.alloc .start (by decide) hcall
  refine ⟨k, hr, ?_⟩
  obtain ⟨-, -, himage, -⟩ := liballoc_run_spec (by decide) .boot .init hr
  obtain ⟨x, hx, i, hi, heq⟩ := (himage 0x20000#64).mp (by decide)
  obtain rfl := List.mem_singleton.mp hx
  obtain rfl : i = 0 := by simpa using hi
  exact heq

end KernelMem
end Borrrdex
