import Borrrdex.Memory.FreshPages
import Borrrdex.Memory.Liballoc
import Borrrdex.Memory.MallocRuns

/-!
# The kernel's heap on physical memory

The pages of the heap come from `liballoc_alloc`, which takes heap pages and a physical block for
each.  The runs it has handed out are the picture that `malloc` and `free` need from a source of
pages (`liballocSource_sound`), so a run of the heap is a run of separate arrays, down to the
blocks: no byte of memory belongs to two of them.
-/

set_option autoImplicit false

namespace Borrrdex
namespace Liballoc

open ArrayHeap (Call)
open KernelMem KernelHeap PhysAllocator

/-- The pages of the heap, from the two allocators. -/
def liballocSource (phys : PhysOf) : PageSource KernelMem where
  alloc pages k :=
    match liballocAlloc phys pages k with
    | .error _ => none
    | .ok (addr, _, k') => some (addr.toNat, k')
  free addr pages k :=
    match liballocFree (BitVec.ofNat 64 addr) pages k with
    | .error _ => none
    | .ok (_, k') => some k'

/-- A chunk of pages, as a run. -/
def runOf (x : U64 × ℕ) : ℕ × ℕ := (x.1.toNat, x.2)

variable {regions : List UsableRegion} {phys : PhysOf} {held₀ out : Finset ℕ}
  {live₀ chunks : List (U64 × ℕ)} {k₀ k : KernelMem} {x : U64 × ℕ} {p : ℕ}

/-- The runs are the chunks that have been taken, none of them empty. -/
def KernelHolds (regions : List UsableRegion) (held₀ : Finset ℕ) (live₀ : List (U64 × ℕ))
    (k₀ k : KernelMem) (runs : List (ℕ × ℕ)) : Prop :=
  ∃ chunks out, ChunkInv regions held₀ live₀ k₀ k chunks out ∧ runs = chunks.map runOf ∧
    ∀ x ∈ chunks, 1 ≤ x.2

theorem runOf_injective : Function.Injective runOf := by
  rintro ⟨a, n⟩ ⟨b, m⟩ heq
  obtain ⟨ha, hn⟩ := Prod.mk.inj heq
  exact Prod.ext (BitVec.eq_of_toNat_eq ha) hn

/-- The address of a chunk is that of its first page. -/
theorem toNat_of_live {h : KernelHeap} {live : List (U64 × ℕ)} (hl : LiveInv h live)
    (hx : x ∈ live) : x.1.toNat = 0xFFFFFFFFC0000000 + 4096 * heapIndex x.1 := by
  have haddr := congrArg BitVec.toNat (hl.addr_eq x hx)
  rwa [toNat_heapPage (heapIndex_lt x.1)] at haddr

theorem liballocSource_sound :
    (liballocSource phys).Sound (KernelHolds regions held₀ live₀ k₀) where
  alloc := by
    rintro k k' runs n a ⟨chunks, out, hc, rfl, hpos⟩ hn hcall
    simp only [liballocSource] at hcall
    cases hget : liballocAlloc phys n k with
    | error e =>
      rw [hget] at hcall
      cases hcall
    | ok r =>
      obtain ⟨addr, taken, k₁⟩ := r
      rw [hget] at hcall
      cases hcall
      obtain ⟨start, bs, -, ha⟩ := liballocAlloc_spec hc.refines hc.live.toHeapInv hn hget
      have hc' := hc.alloc ha
      have hlive := hc'.live
      have hmem : (addr, n) ∈ ((addr, n) :: chunks) ++ live₀ := List.mem_cons_self
      have haddr := toNat_of_live hlive hmem
      have hin := hlive.inside _ hmem
      rw [heapPages] at hin
      dsimp only at haddr hin
      refine ⟨by omega, by omega, fun d hd ↦ ?_, (addr, n) :: chunks, _, hc', rfl, ?_⟩
      · obtain ⟨y, hy, rfl⟩ := List.mem_map.mp hd
        have hy' : y ∈ ((addr, n) :: chunks) ++ live₀ :=
          List.mem_cons_of_mem _ (List.mem_append_left _ hy)
        have haddr' := toNat_of_live hlive hy'
        have hdisj := (List.pairwise_cons.mp (List.pairwise_append.mp hlive.apart).1).1 y hy
        have hpos' := hpos y hy
        -- the later one of the two starts would be in both
        by_contra hno
        obtain ⟨hlt, hlt'⟩ := not_or.mp hno
        have hlt : ¬ addr.toNat + 4096 * n ≤ y.1.toNat := hlt
        have hlt' : ¬ y.1.toNat + 4096 * y.2 ≤ addr.toNat := hlt'
        have hfirst : max (heapIndex addr) (heapIndex y.1) ∈ rangePages (addr, n) :=
          ⟨le_max_left .., by dsimp only; omega⟩
        exact Set.disjoint_left.mp hdisj hfirst ⟨le_max_right .., by omega⟩
      · rintro y (_ | ⟨_, hy⟩)
        · exact hn
        · exact hpos y hy
  free := by
    rintro k runs c ⟨chunks, out, hc, rfl, hpos⟩ hmem
    obtain ⟨x, hx, rfl⟩ := List.mem_map.mp hmem
    obtain ⟨bs, k', hcall, -, hc'⟩ := hc.free hx
    refine ⟨k', ?_, chunks.erase x, _, hc', ?_, fun y hy ↦ hpos y (List.mem_of_mem_erase hy)⟩
    · simp only [liballocSource, runOf, BitVec.ofNat_toNat, BitVec.setWidth_eq, hcall]
    · exact (List.map_erase runOf_injective chunks).symm

theorem kernelHolds_nil (href : Refines regions k.blocks held₀) (hlive : LiveInv k.heap live₀) :
    KernelHolds regions held₀ live₀ k k [] :=
  ⟨[], ∅, ⟨by simpa using href, by simp, hlive, by simp [chunkPages], by simp [chunkPages],
    by simp [chunkPages], fun _ _ ↦ rfl⟩, rfl, by simp⟩

/-! ## Where the bytes are -/

/-- The byte of memory that the hardware finds for an address in the heap. -/
def physicalByte (k : KernelMem) (x : ℕ) : Option ℕ :=
  (k.heap.translate (BitVec.ofNat 64 (x / 4096 * 4096))).map fun f ↦ 4096 * f + x % 4096

/-- The bytes of a chunk are on the pages of its entries. -/
theorem physicalByte_eq (hc : ChunkInv regions held₀ live₀ k₀ k chunks out) (hx : x ∈ chunks)
    (hlo : x.1.toNat ≤ p) (hhi : p < x.1.toNat + 4096 * x.2) :
    ∃ i, heapIndex x.1 ≤ i ∧ i < heapIndex x.1 + x.2 ∧
      p = 0xFFFFFFFFC0000000 + 4096 * i + p % 4096 ∧
      physicalByte k p = some (4096 * frameOf (k.heap.entry i) + p % 4096) := by
  have hx' : x ∈ chunks ++ live₀ := List.mem_append_left _ hx
  have haddr := toNat_of_live hc.live hx'
  have hin := hc.live.inside x hx'
  obtain ⟨i, hi⟩ : ∃ i, i = (p - 0xFFFFFFFFC0000000) / 4096 := ⟨_, rfl⟩
  have hp : p = 0xFFFFFFFFC0000000 + 4096 * i + p % 4096 := by omega
  have hlt : i < heapPages := by omega
  have hpage : BitVec.ofNat 64 (p / 4096 * 4096) = heapPage i := by
    rw [heapPage]
    congr 1
    omega
  have hused := hc.live.used x hx' i ⟨by omega, by omega⟩
  have hdir : present (k.heap.dir (i / 512)) = true := by
    by_contra hno
    have hempty := hc.live.unused_empty i (by simpa using hno)
    rw [hused] at hempty
    cases hempty
  refine ⟨i, by omega, by omega, hp, ?_⟩
  rw [physicalByte, hpage, KernelHeap.translate_eq_some.mpr ⟨pml4Index_heapPage hlt,
    pdptIndex_heapPage hlt, by rwa [pdeIndex_heapPage hlt], hc.live.not_large _,
    by rwa [heapIndex_heapPage hlt], rfl⟩, heapIndex_heapPage hlt]
  rfl

/-! ## Runs of the heap -/

/-- The loop of `liballoc_alloc` does not halt while there are blocks. -/
theorem backPages_returns {addr : U64} {n : ℕ} :
    ∀ {i : ℕ} {k : KernelMem} {held S : Finset ℕ}, Refines regions k.blocks held →
      S.card = n → (∀ b ∈ S, b ∈ (pool regions held).available) →
      ∃ r, backPages addr n i k = .ok r := by
  induction n with
  | zero => exact fun _ _ _ ↦ ⟨_, rfl⟩
  | succ n ih =>
    intro i k held S href hcard hS
    obtain ⟨c, hc⟩ := Finset.card_pos.mp (by omega : 0 < S.card)
    rcases href.allocate with ⟨b, blocks, hb, hblock, href'⟩ | ⟨hempty, -⟩
    · -- one element of `S` is spent, if not the one that was taken
      obtain ⟨d, hd, hrest⟩ : ∃ d ∈ S, ∀ e ∈ S.erase d, e ≠ b := by
        by_cases hbS : b ∈ S
        · exact ⟨b, hbS, fun e he ↦ Finset.ne_of_mem_erase he⟩
        · exact ⟨c, hc, fun e he heq ↦ hbS (heq ▸ Finset.mem_of_mem_erase he)⟩
      obtain ⟨r, hr⟩ := ih (S := S.erase d) (i := i + 1)
        (k := { k with
          blocks := blocks
          heap := kernelMapVirtualMemory4k kernelFlags 1 (blockAddr b) (pageAt addr i) k.heap })
        href' (by rw [Finset.card_erase_of_mem hd, hcard, Nat.add_sub_cancel])
        fun e he ↦ by
          obtain ⟨husable, hfree⟩ := hS e (Finset.mem_of_mem_erase he)
          refine ⟨husable, fun hmem ↦ ?_⟩
          rcases Finset.mem_insert.mp hmem with heq | hmem
          · exact hrest e he heq
          · exact hfree hmem
      refine ⟨(blockAddr b :: r.1, r.2), ?_⟩
      rw [backPages, hblock]
      simp only [hr]
    · have hc' := hS c hc
      rw [hempty] at hc'
      cases hc'

/-- A machine with sixteen usable blocks, after boot. -/
def smallMem : KernelMem := ⟨boot [⟨0x20000, 0x10000⟩], KernelHeap.atInit, fun _ _ ↦ 0⟩

theorem small_inside : ∀ r ∈ [(⟨0x20000, 0x10000⟩ : UsableRegion)], r.Inside := by decide

/-- They are enough for the first pages of the heap. -/
theorem small_liballocAlloc : ∃ r, liballocAlloc (fun _ ↦ 0#64) 16 smallMem = .ok r := by
  have hsome : (kernelAllocate4kPages (fun _ ↦ 0#64) 16 KernelHeap.atInit).toOption.isSome =
      true := by decide +kernel
  cases hheap : kernelAllocate4kPages (fun _ ↦ 0#64) 16 KernelHeap.atInit with
  | error e =>
    rw [hheap] at hsome
    cases hsome
  | ok r =>
    have hcard : (Finset.Ico 32 48).card = 16 := by simp
    obtain ⟨q, hq⟩ : ∃ q, backPages r.1 16 0 ⟨smallMem.blocks, r.2, smallMem.ram⟩ = .ok q :=
      backPages_returns (refines_boot small_inside) hcard fun b hb ↦ by
        rw [Finset.mem_Ico] at hb
        refine ⟨⟨hb.1, ?_, ⟨_, List.mem_singleton.mpr rfl, ?_⟩⟩, Finset.notMem_empty b⟩
        · show b < 524480
          omega
        · show 131072 / 4096 ≤ b ∧ b < 131072 / 4096 + (65536 + 4095) / 4096
          omega
    refine ⟨(r.1, q.1, q.2), ?_⟩
    rw [liballocAlloc, show smallMem.heap = KernelHeap.atInit from rfl, hheap]
    simp only [hq]

theorem sizes_malloc (p n : ℕ) : ArrayHeap.sizes [((.malloc n : Call Byte), p)] p = some n := by
  show Function.update (fun _ ↦ none) p (some n) p = some n
  exact Function.update_self ..

/-- A first call of `malloc`, and `free`. -/
theorem first_malloc : ∃ p h r h',
    HeapRun (liballocSource fun _ ↦ 0#64) (State.unused (fun _ ↦ 0) smallMem)
      [(.malloc 10, p)] h ∧
    HeapRun (liballocSource fun _ ↦ 0#64) (State.unused (fun _ ↦ 0) smallMem)
      [(.malloc 10, p), (.free p, r)] h' := by
  have hholds := kernelHolds_nil (k := smallMem) (refines_boot small_inside)
    (heapReaches_liveInv (.init : HeapReaches (fun _ ↦ 0#64) KernelHeap.atInit []))
  have hsound : (liballocSource fun _ ↦ 0#64).Sound
      (KernelHolds [⟨0x20000, 0x10000⟩] ∅ [] smallMem) := liballocSource_sound
  obtain ⟨p, h, hmove⟩ : ∃ p h, Moves (liballocSource fun _ ↦ 0#64)
      (State.unused (fun _ ↦ 0) smallMem) (.malloc 10) p h := by
    rcases (shows_unused (m := fun _ ↦ 0) hholds).returns hsound (c := .malloc 10)
      (show 10 + 48 + 4096 ≤ 2 ^ 32 by decide) with hr | ⟨n, hn, hnone⟩
    · exact hr
    · cases hn
      obtain ⟨r, hr⟩ := small_liballocAlloc
      have hpages : pagesFor (10 + 48) = 16 := by decide
      rw [hpages] at hnone
      simp only [liballocSource, State.unused, hr] at hnone
      cases hnone
  have hrun := HeapRun.call (c := .malloc 10) .start (show 10 + 48 + 4096 ≤ 2 ^ 32 by decide) hmove
  obtain ⟨A, L, hideal, hS⟩ := hrun.shows hsound hholds
  have hfree : Allowed (ArrayHeap.sizes [(Call.malloc 10, p)]) (.free p) :=
    .inr ⟨10, sizes_malloc p 10⟩
  have hfree' := hfree
  rw [← List.nil_append [(Call.malloc 10, p)], ← hideal.sizes_eq] at hfree'
  rcases hS.returns hsound hfree' with ⟨r, h', hmove'⟩ | ⟨n, hn, -⟩
  · exact ⟨p, h, r, h', hrun, .call hrun hfree hmove'⟩
  · cases hn

/-- **A run of the kernel's heap is a run of separate arrays**, with the same calls and the same
results.  What is in the arrays is in memory, and a call that is allowed returns unless
`liballoc_alloc` halts on the number of pages for what it asks for. -/
theorem kernelHeap_refines {mem : ByteMem} {tr : List (Call Byte × ℕ)} {h : State KernelMem}
    (hin : ∀ r ∈ regions, r.Inside) (hblocks : Reaches regions k₀.blocks held₀)
    (hheap : HeapReaches phys k₀.heap live₀)
    (hrun : HeapRun (liballocSource phys) (State.unused mem k₀) tr h) :
    ∃ A, ArrayHeap.Run 0 tr A ∧ ArrayHeap.Apart A ∧
      (∀ p w, A p = some w → p + w.length ≤ 2 ^ 64 ∧ bytesAt h.mem p w.length = w) ∧
      ∀ c, Allowed (ArrayHeap.sizes tr) c →
        (∃ r h', Moves (liballocSource phys) h c r h') ∨
        ∃ n e, c.asks = some n ∧ liballocAlloc phys (pagesFor (n + 48)) h.pages = .error e := by
  have hholds := kernelHolds_nil (reaches_refines hin hblocks) (heapReaches_liveInv hheap)
  obtain ⟨A, hideal, hapart, hbytes, hreturns⟩ :=
    heapRun_refines liballocSource_sound hholds hrun
  refine ⟨A, hideal, hapart, hbytes, fun c hc ↦ (hreturns c hc).imp_right ?_⟩
  rintro ⟨n, hn, hnone⟩
  simp only [liballocSource] at hnone
  cases hcall : liballocAlloc phys (pagesFor (n + 48)) h.pages with
  | error e => exact ⟨n, e, hn, hcall⟩
  | ok r =>
    rw [hcall] at hnone
    cases hnone

theorem kernelHeap_refines_first : ∃ p h A,
    HeapRun (liballocSource fun _ ↦ 0#64) (State.unused (fun _ ↦ 0) smallMem)
      [(.malloc 10, p)] h ∧
    ArrayHeap.Run (0 : Byte) [(.malloc 10, p)] A ∧ ArrayHeap.Apart A := by
  obtain ⟨p, h, -, -, hrun, -⟩ := first_malloc
  obtain ⟨A, hideal, hapart, -⟩ := kernelHeap_refines small_inside .boot .init hrun
  exact ⟨p, h, A, hrun, hideal, hapart⟩

/-- **No byte of memory belongs to two arrays**, after any run of the kernel's heap: every byte of
an array is in a block that was free, and no other byte of an array is the same. -/
theorem kernelHeap_physical {mem : ByteMem} {tr : List (Call Byte × ℕ)} {h : State KernelMem}
    (hin : ∀ r ∈ regions, r.Inside) (hblocks : Reaches regions k₀.blocks held₀)
    (hheap : HeapReaches phys k₀.heap live₀)
    (hrun : HeapRun (liballocSource phys) (State.unused mem k₀) tr h) :
    (∀ p n, ArrayHeap.sizes tr p = some n → ∀ i < n, ∃ y,
      physicalByte h.pages (p + i) = some y ∧ y / 4096 ∈ marked regions ∧ y / 4096 ∉ held₀) ∧
    ∀ p n q m, ArrayHeap.sizes tr p = some n → ArrayHeap.sizes tr q = some m →
      ∀ i < n, ∀ j < m, physicalByte h.pages (p + i) = physicalByte h.pages (q + j) →
        p = q ∧ i = j := by
  have hholds := kernelHolds_nil (reaches_refines hin hblocks) (heapReaches_liveInv hheap)
  obtain ⟨A, L, hideal, hS⟩ := hrun.shows liballocSource_sound hholds
  obtain ⟨chunks, out, hc, hruns, -⟩ := hS.consistent.holds
  -- a byte of an array is in a page of one of the chunks
  have hbyte : ∀ p n, ArrayHeap.sizes tr p = some n → ∀ i < n, ∃ j ∈ chunkPages chunks,
      p + i = 0xFFFFFFFFC0000000 + 4096 * j + (p + i) % 4096 ∧
      physicalByte h.pages (p + i) =
        some (4096 * frameOf (h.pages.heap.entry j) + (p + i) % 4096) := by
    intro p n hp i hi
    rw [← hideal.sizes_eq] at hp
    obtain ⟨w, hw, rfl⟩ := exists_of_sizesOf hp
    obtain ⟨a, ha, rfl, hlen, -⟩ := hS.live hw
    obtain ⟨c, hcL, hac⟩ := ha.1
    have hfits := hS.consistent.rep.fits a ha.1 ha.2 (Set.notMem_empty a)
    obtain ⟨hlo, -, hhi⟩ := hS.consistent.rep.inside hcL hac
    rw [hruns] at hcL
    obtain ⟨x, hx, rfl⟩ := List.mem_map.mp hcL
    simp only [runOf] at hlo hhi
    obtain ⟨j, hj, hj', heq, hphys⟩ := physicalByte_eq (p := a + 48 + i) hc hx (by omega) (by omega)
    exact ⟨j, ⟨x, hx, hj, hj'⟩, heq, hphys⟩
  refine ⟨fun p n hp i hi ↦ ?_, fun p n q m hp hq i hi j hj heq ↦ ?_⟩
  · obtain ⟨j, hj, -, hphys⟩ := hbyte p n hp i hi
    have hout := (hc.frames _).mpr ⟨j, hj, rfl⟩
    refine ⟨_, hphys, ?_⟩
    rw [show (4096 * frameOf (h.pages.heap.entry j) + (p + i) % 4096) / 4096 =
      frameOf (h.pages.heap.entry j) by omega]
    exact ⟨(hc.refines.held_usable _ (Finset.mem_union_right _ hout)).2.2,
      Finset.disjoint_right.mp hc.apart hout⟩
  · obtain ⟨a, ha, hpa, hphys⟩ := hbyte p n hp i hi
    obtain ⟨b, hb, hqb, hphys'⟩ := hbyte q m hq j hj
    rw [hphys, hphys', Option.some_inj] at heq
    have hframe : frameOf (h.pages.heap.entry a) = frameOf (h.pages.heap.entry b) := by omega
    have hab := hc.inj ha hb hframe
    have hsame : p + i = q + j := by
      rw [hab] at hpa
      omega
    have hpq : p = q := by
      by_contra hne
      rw [← hideal.sizes_eq] at hp hq
      obtain ⟨w, hw, rfl⟩ := exists_of_sizesOf hp
      obtain ⟨w', hw', rfl⟩ := exists_of_sizesOf hq
      rcases hideal.apart.apart p w q w' hw hw' hne with hle | hle <;> omega
    exact ⟨hpq, by omega⟩

theorem kernelHeap_physical_first : ∃ p h y,
    HeapRun (liballocSource fun _ ↦ 0#64) (State.unused (fun _ ↦ 0) smallMem)
      [(.malloc 10, p)] h ∧ physicalByte h.pages p = some y := by
  obtain ⟨p, h, -, -, hrun, -⟩ := first_malloc
  obtain ⟨y, hy, -⟩ := (kernelHeap_physical small_inside .boot .init hrun).1 p 10
    (sizes_malloc p 10) 0 (by decide)
  exact ⟨p, h, y, hrun, hy⟩

/-! ## What is kept -/

/-- As many blocks are taken as there are pages in the chunks. -/
theorem card_out (hc : ChunkInv regions held₀ live₀ k₀ k chunks out) :
    out.card = (chunks.map Prod.snd).sum := by
  obtain ⟨pages, hpages⟩ : ∃ pages,
    chunks.flatMap (fun x ↦ List.range' (heapIndex x.1) x.2) = pages := ⟨_, rfl⟩
  have hmem : ∀ p, p ∈ pages ↔ p ∈ chunkPages chunks := fun p ↦ by
    rw [← hpages, List.mem_flatMap]
    exact exists_congr fun x ↦ and_congr_right fun _ ↦ List.mem_range'_1
  have hnodup : pages.Nodup := by
    rw [← hpages]
    refine List.nodup_flatMap.mpr ⟨fun x _ ↦ List.nodup_range', ?_⟩
    refine (List.pairwise_append.mp hc.live.apart).1.imp fun {x y} hdisj p hx hy ↦ ?_
    exact Set.disjoint_left.mp hdisj (List.mem_range'_1.mp hx) (List.mem_range'_1.mp hy)
  have hout : out = (pages.map fun p ↦ frameOf (k.heap.entry p)).toFinset := by
    ext b
    rw [hc.frames, List.mem_toFinset, List.mem_map]
    exact exists_congr fun p ↦ and_congr_left fun _ ↦ (hmem p).symm
  rw [hout, List.toFinset_card_of_nodup (hnodup.map_on fun p hp q hq ↦
    hc.inj ((hmem p).mp hp) ((hmem q).mp hq)), List.length_map, ← hpages, List.length_flatMap]
  simp

/-- **What is freed is given back**: after a run that has freed everything, the heap keeps runs of
pages that are each one free area, at most five of each class of sizes, and as many physical blocks
are used more than before as there are pages in these. -/
theorem kernelHeap_freed {mem : ByteMem} {tr : List (Call Byte × ℕ)} {h : State KernelMem}
    (hin : ∀ r ∈ regions, r.Inside) (hblocks : Reaches regions k₀.blocks held₀)
    (hheap : HeapReaches phys k₀.heap live₀)
    (hrun : HeapRun (liballocSource phys) (State.unused mem k₀) tr h)
    (hfreed : ArrayHeap.sizes tr = fun _ ↦ none) :
    ∃ runs : List (ℕ × ℕ),
      (∀ c ∈ runs, h.InList c.1 ∧ h.Whole c.1 ∧ h.tag c.1 .realSize = 4096 * c.2) ∧
      (∀ i, runs.countP (fun c ↦ listIndex (room (4096 * c.2)) = i) ≤ 5) ∧
      h.pages.blocks.usedBlocks =
        k₀.blocks.usedBlocks + BitVec.ofNat 64 (runs.map Prod.snd).sum := by
  have href := reaches_refines hin hblocks
  have hholds := kernelHolds_nil href (heapReaches_liveInv hheap)
  obtain ⟨runs, ⟨chunks, out, hc, rfl, -⟩, hwhole, hfew⟩ :=
    heapRun_freed liballocSource_sound hholds hrun hfreed
  refine ⟨_, hwhole, hfew, ?_⟩
  rw [hc.refines.usedBlocks_eq, href.usedBlocks_eq, Finset.card_union_of_disjoint hc.apart,
    BitVec.ofNat_add, card_out hc, List.map_map]
  rfl

theorem kernelHeap_freed_first : ∃ tr h, ∃ runs : List (ℕ × ℕ),
    HeapRun (liballocSource fun _ ↦ 0#64) (State.unused (fun _ ↦ 0) smallMem) tr h ∧
    tr.length = 2 ∧
    ∀ i, runs.countP (fun c ↦ listIndex (room (4096 * c.2)) = i) ≤ 5 := by
  obtain ⟨p, -, r, h', -, hrun⟩ := first_malloc
  obtain ⟨runs, -, hfew, -⟩ := kernelHeap_freed small_inside .boot .init hrun (by
    show Function.update (Function.update (fun _ ↦ none) p (some 10)) p none = _
    rw [Function.update_idem, Function.update_eq_self_iff])
  exact ⟨_, h', runs, hrun, rfl, hfew⟩

end Liballoc
end Borrrdex
