import Mathlib.Data.List.Pairwise
import Mathlib.Data.Set.BooleanAlgebra
import Mathlib.Data.Set.Disjoint
import Mathlib.Order.BourbakiWitt
import Mathlib.Order.CompletePartialOrder
import Mathlib.Tactic.SplitIfs
import Borrrdex.Memory.KernelHeap

/-!
# Live ranges of the kernel heap

The two indices of a heap page, the number of its table and its place in the table, are the two
digits of one number to the base 512.  `heapIndex` is that number for an address and `entry` the
table entry it selects; in these terms the cursor of `kernel_allocate_4k_pages` is the number
`512 * pageDirOffset + offset`, whether the offset is 512 or not, and all three operations on the
heap act on an interval of numbers.

`HeapReaches` describes the runs of the heap, with the ranges that are live, and `HeapInv` what
they keep: a table that is not in use holds no present entry.  That is what makes the second pass
of the allocator safe.
-/

set_option autoImplicit false

namespace Borrrdex

/-- The number of 4 KiB pages of the heap gigabyte. -/
def heapPages : Nat := 262144

/-- The page of the heap an address selects, by `PDE_GET_INDEX` and `PT_GET_INDEX`. -/
def heapIndex (virt : U64) : Nat := 512 * pdeIndex virt + ptIndex virt

/-- The address of a page of the heap. -/
def heapPage (p : Nat) : U64 := BitVec.ofNat 64 (0xFFFFFFFFC0000000 + 4096 * p)

theorem heapIndex_eq (virt : U64) : heapIndex virt = virt.toNat / 4096 % heapPages := by
  rw [heapIndex, pdeIndex_eq, ptIndex_eq, heapPages]
  omega

theorem heapIndex_lt (virt : U64) : heapIndex virt < heapPages := by
  rw [heapIndex_eq]
  exact Nat.mod_lt _ (by decide)

theorem pdeIndex_lt (virt : U64) : pdeIndex virt < 512 := by
  rw [pdeIndex_eq]
  exact Nat.mod_lt _ (by decide)

theorem ptIndex_lt (virt : U64) : ptIndex virt < 512 := by
  rw [ptIndex_eq]
  exact Nat.mod_lt _ (by decide)

theorem heapIndex_div (virt : U64) : heapIndex virt / 512 = pdeIndex virt := by
  have h := ptIndex_lt virt
  rw [heapIndex]
  omega

theorem heapIndex_mod (virt : U64) : heapIndex virt % 512 = ptIndex virt := by
  have h := ptIndex_lt virt
  rw [heapIndex]
  omega

theorem toNat_heapPage {p : Nat} (hp : p < heapPages) :
    (heapPage p).toNat = 0xFFFFFFFFC0000000 + 4096 * p := by
  rw [heapPages] at hp
  rw [heapPage, BitVec.toNat_ofNat]
  omega

theorem heapIndex_heapPage {p : Nat} (hp : p < heapPages) : heapIndex (heapPage p) = p := by
  rw [heapIndex_eq, toNat_heapPage hp]
  rw [heapPages] at hp ⊢
  omega

/-- The `k`-th page from an address. -/
def pageAt (virt : U64) (k : Nat) : U64 := virt + 0x1000#64 * BitVec.ofNat 64 k

theorem toNat_pageAt (virt : U64) (k : Nat) :
    (pageAt virt k).toNat = (virt.toNat + 4096 * k) % 2 ^ 64 := by
  rw [pageAt, BitVec.toNat_add, BitVec.toNat_mul, BitVec.toNat_ofNat, BitVec.toNat_ofNat]
  simp only [Nat.mod_mul_mod, Nat.mul_mod_mod, Nat.add_mod_mod]

theorem pageAt_zero (virt : U64) : pageAt virt 0 = virt := by
  rw [pageAt]
  bv_omega

theorem pageAt_succ (virt : U64) (k : Nat) :
    pageAt virt (k + 1) = pageAt (virt + 0x1000#64) k := by
  refine BitVec.eq_of_toNat_eq ?_
  rw [toNat_pageAt, toNat_pageAt, BitVec.toNat_add, BitVec.toNat_ofNat]
  omega

theorem heapIndex_pageAt (virt : U64) (k : Nat) :
    heapIndex (pageAt virt k) = (heapIndex virt + k) % heapPages := by
  rw [heapIndex_eq, heapIndex_eq, toNat_pageAt, heapPages]
  omega

theorem heapIndex_pageAt_of_lt {virt : U64} {k : Nat} (h : heapIndex virt + k < heapPages) :
    heapIndex (pageAt virt k) = heapIndex virt + k := by
  rw [heapIndex_pageAt, Nat.mod_eq_of_lt h]

theorem pageAt_heapPage (p k : Nat) : pageAt (heapPage p) k = heapPage (p + k) := by
  rw [pageAt, heapPage, heapPage, Nat.mul_add, ← Nat.add_assoc, BitVec.ofNat_add _ (4096 * k),
    BitVec.ofNat_mul]

/-- Sign extension of a 48-bit address with its top bit set. -/
theorem or_top_bits {x : Nat} (hx : x < 2 ^ 48) :
    0xFFFF000000000000 ||| x = 0xFFFF000000000000 + x := by
  have hor := Nat.two_pow_add_eq_or_of_lt hx 0xFFFF
  rw [show 2 ^ 48 * 0xFFFF = 0xFFFF000000000000 by decide] at hor
  exact hor.symm

/-- **The address a run starts at** is the address of the page its cursor names, also when the
offset is one past the end of a table. -/
theorem runAddress_eq {d o : Nat} (h : 512 * d + o < heapPages) :
    KernelHeap.runAddress d o = heapPage (512 * d + o) := by
  have hbase : 0x8000000000#64 * 511#64 + 511#64 * 0x40000000#64 = 0xFFFFC0000000#64 := by decide
  have htop : (0xFFFF000000000000#64).toNat = 0xFFFF000000000000 := by decide
  have h' : 512 * d + o < 262144 := h
  refine BitVec.eq_of_toNat_eq ?_
  rw [KernelHeap.runAddress, hbase, ← BitVec.ofNat_mul, ← BitVec.ofNat_mul, ← BitVec.ofNat_add,
    ← BitVec.ofNat_add, BitVec.toNat_or, htop, toNat_heapPage h, Nat.or_comm, BitVec.toNat_ofNat,
    or_top_bits (by omega)]
  omega

/-- The page a cursor's run starts at. -/
def RunCursor.start (c : RunCursor) : Nat := 512 * c.pageDirOffset + c.offset

namespace KernelHeap

/-! ## Entries by page number -/

/-- The table entry of a page of the heap. -/
def entry (h : KernelHeap) (p : Nat) : U64 := h.tables (p / 512) (p % 512)

theorem entry_heapIndex (h : KernelHeap) (virt : U64) :
    h.entry (heapIndex virt) = h.tables (pdeIndex virt) (ptIndex virt) := by
  rw [entry, heapIndex_div, heapIndex_mod]

theorem entry_mul_add (h : KernelHeap) {i j : Nat} (hj : j < 512) :
    h.entry (512 * i + j) = h.tables i j := by
  rw [entry, show (512 * i + j) / 512 = i by omega, show (512 * i + j) % 512 = j by omega]

theorem entry_setEntry (h : KernelHeap) {i j : Nat} (hj : j < 512) (e : U64) (p : Nat) :
    (h.setEntry i j e).entry p = if p = 512 * i + j then e else h.entry p := by
  simp only [entry, setEntry]
  split
  · next hp =>
    rw [hp, show (512 * i + j) / 512 = i by omega, show (512 * i + j) % 512 = j by omega,
      Function.update_self, Function.update_self]
  · next hp =>
    by_cases hi : p / 512 = i
    · rw [hi, Function.update_self, Function.update_of_ne (by omega)]
    · rw [Function.update_of_ne hi]

theorem entry_setEntry_heapIndex (h : KernelHeap) (virt e : U64) (p : Nat) :
    (h.setEntry (pdeIndex virt) (ptIndex virt) e).entry p =
      if p = heapIndex virt then e else h.entry p :=
  entry_setEntry h (ptIndex_lt virt) e p

@[simp] theorem dir_setEntry (h : KernelHeap) (i j : Nat) (e : U64) :
    (h.setEntry i j e).dir = h.dir := rfl

@[simp] theorem entry_openTable (phys : PhysOf) (h : KernelHeap) (i p : Nat) :
    (h.openTable phys i).entry p = h.entry p := rfl

/-- What a directory entry becomes when its table is brought into use. -/
def opened (phys : PhysOf) (h : KernelHeap) (i : Nat) : U64 :=
  setPageFrame (h.dir i) (phys i) ||| (tableWriteable ||| tablePresent)

theorem dir_openTable (phys : PhysOf) (h : KernelHeap) (i d : Nat) :
    (h.openTable phys i).dir d = if d = i then h.opened phys i else h.dir d := by
  simp only [openTable, Function.update_apply, opened]

theorem present_opened (phys : PhysOf) (h : KernelHeap) (i : Nat) :
    present (h.opened phys i) = true := by
  rw [opened, present_or, show present (tableWriteable ||| tablePresent) = true by decide,
    Bool.or_true]

theorem large_opened (phys : PhysOf) (h : KernelHeap) (i : Nat) :
    large (h.opened phys i) = large (h.dir i) := by
  rw [opened, large_or, large_setPageFrame,
    show large (tableWriteable ||| tablePresent) = false by decide, Bool.or_false]

/-! ## The marking loops -/

/-- Marking `n` pages from a cursor sets the entries of the `n` pages it names. -/
theorem markPages_spec : ∀ (n d o : Nat) (h : KernelHeap), o ≤ 512 →
    (markPages n d o h).dir = h.dir ∧
      ∀ p, (markPages n d o h).entry p =
        if 512 * d + o ≤ p ∧ p < 512 * d + o + n then tableWriteable ||| tablePresent
        else h.entry p
  | 0, d, o, h, _ => ⟨rfl, fun p ↦ by rw [if_neg (by omega)]; rfl⟩
  | n + 1, d, o, h, ho => by
    rw [markPages]
    split
    · -- the cursor stands one past the table, so the next page is the first of the next one
      obtain ⟨hdir, hentry⟩ := markPages_spec n (d + 1) 1
        (h.setEntry (d + 1) 0 (tableWriteable ||| tablePresent)) (by omega)
      refine ⟨hdir, fun p ↦ ?_⟩
      rw [hentry p, entry_setEntry h (by omega)]
      split_ifs <;> first | rfl | omega
    · obtain ⟨hdir, hentry⟩ := markPages_spec n d (o + 1)
        (h.setEntry d o (tableWriteable ||| tablePresent)) (by omega)
      refine ⟨hdir, fun p ↦ ?_⟩
      rw [hentry p, entry_setEntry h (by omega)]
      split_ifs <;> first | rfl | omega

/-- Marking pages of new tables sets the same entries, and brings into use every table the cursor
moves into. -/
theorem markNewPages_spec (phys : PhysOf) : ∀ (n d o : Nat) (h : KernelHeap), o ≤ 512 →
    (∀ i, (markNewPages phys n d o h).dir i =
        if d < i ∧ 512 * i < 512 * d + o + n then h.opened phys i else h.dir i) ∧
      ∀ p, (markNewPages phys n d o h).entry p =
        if 512 * d + o ≤ p ∧ p < 512 * d + o + n then tableWriteable ||| tablePresent
        else h.entry p
  | 0, d, o, h, _ =>
    ⟨fun i ↦ by rw [if_neg (by omega)]; rfl, fun p ↦ by rw [if_neg (by omega)]; rfl⟩
  | n + 1, d, o, h, ho => by
    rw [markNewPages]
    split
    · obtain ⟨hdir, hentry⟩ := markNewPages_spec phys n (d + 1) 1
        ((h.openTable phys (d + 1)).setEntry (d + 1) 0 (tableWriteable ||| tablePresent)) (by omega)
      refine ⟨fun i ↦ ?_, fun p ↦ ?_⟩
      · rw [hdir i, dir_setEntry, dir_openTable]
        by_cases hi : i = d + 1
        · subst hi
          rw [if_neg (by omega), if_pos rfl, if_pos (by omega)]
        · have hop : ((h.openTable phys (d + 1)).setEntry (d + 1) 0
              (tableWriteable ||| tablePresent)).opened phys i = h.opened phys i := by
            rw [opened, opened, dir_setEntry, dir_openTable, if_neg hi]
          rw [hop, if_neg hi]
          split_ifs <;> first | rfl | omega
      · rw [hentry p, entry_setEntry _ (by omega), entry_openTable]
        split_ifs <;> first | rfl | omega
    · obtain ⟨hdir, hentry⟩ := markNewPages_spec phys n d (o + 1)
        (h.setEntry d o (tableWriteable ||| tablePresent)) (by omega)
      refine ⟨fun i ↦ ?_, fun p ↦ ?_⟩
      · rw [hdir i, dir_setEntry]
        have hop : (h.setEntry d o (tableWriteable ||| tablePresent)).opened phys i =
            h.opened phys i := rfl
        rw [hop]
        split_ifs <;> first | rfl | omega
      · rw [hentry p, entry_setEntry h (by omega)]
        split_ifs <;> first | rfl | omega

/-! ## The two passes -/

/-- The first pass is about to look at page `q`: the run is the free pages right before it, all of
them in tables that are in use, and it is still too short. -/
structure FirstRun (h : KernelHeap) (amount q : Nat) (c : RunCursor) : Prop where
  offset_le : c.offset ≤ 512
  stop : c.start + c.counter = q
  short : c.counter < amount
  free : ∀ p, c.start ≤ p → p < q → present (h.dir (p / 512)) = true ∧ present (h.entry p) = false

/-- What the first pass returns: a run of `amount` free pages in tables that are in use. -/
structure FirstFound (h : KernelHeap) (amount : Nat) (c : RunCursor) : Prop where
  offset_le : c.offset ≤ 512
  counter_eq : c.counter = amount
  inside : c.start + amount ≤ heapPages
  free : ∀ p, c.start ≤ p → p < c.start + amount →
    present (h.dir (p / 512)) = true ∧ present (h.entry p) = false

theorem FirstRun.extend {h : KernelHeap} {amount q : Nat} {c : RunCursor}
    (hc : FirstRun h amount q c) (hdir : present (h.dir (q / 512)) = true)
    (hfree : present (h.entry q) = false) {p : Nat} (hlo : c.start ≤ p) (hhi : p < q + 1) :
    present (h.dir (p / 512)) = true ∧ present (h.entry p) = false := by
  rcases Nat.lt_succ_iff_lt_or_eq.mp hhi with hlt | rfl
  · exact hc.free p hlo hlt
  · exact ⟨hdir, hfree⟩

theorem firstPassTable_spec {h : KernelHeap} {amount i : Nat} (hi : i < 512) {c : RunCursor}
    (hc : FirstRun h amount (512 * i) c) :
    (∃ c', firstPassTable h amount i c = .inl c' ∧ FirstFound h amount c') ∨
      ∃ c', firstPassTable h amount i c = .inr c' ∧ FirstRun h amount (512 * (i + 1)) c' := by
  have hpos : 0 < amount := by have := hc.short; omega
  rw [firstPassTable]
  split
  · next huse =>
    rw [Bool.and_eq_true] at huse
    have hdir : ∀ j < 512, present (h.dir ((512 * i + j) / 512)) = true := by
      intro j hj
      rw [show (512 * i + j) / 512 = i by omega]
      exact huse.1
    refine forRange_rule _ (fun j c ↦ FirstRun h amount (512 * i + j) c) (FirstFound h amount)
      (by simpa using hc) ?_ ?_
    · intro j c c' _ hj hc hbody
      have hj' : j < 512 := by omega
      rw [firstPassPage] at hbody
      split_ifs at hbody with hused hlong
      · cases hbody
        exact ⟨hj', by simp only [RunCursor.start]; omega, hpos,
          fun p h1 h2 ↦ by simp only [RunCursor.start] at h1; omega⟩
      · have hfree : present (h.entry (512 * i + j)) = false := by
          rw [entry_mul_add h hj']
          simpa using hused
        cases hbody
        have hstop := hc.stop
        exact ⟨hc.offset_le, by simp only [RunCursor.start] at hstop ⊢; omega, by simpa using hlong,
          fun p h1 h2 ↦ hc.extend (hdir j hj') hfree h1 (by omega)⟩
    · intro j c c' _ hj hc hbody
      have hj' : j < 512 := by omega
      rw [firstPassPage] at hbody
      split_ifs at hbody with hused hlong
      have hfree : present (h.entry (512 * i + j)) = false := by
        rw [entry_mul_add h hj']
        simpa using hused
      cases hbody
      have hstop := hc.stop
      have hshort := hc.short
      have hcount : c.counter + 1 = amount := by omega
      have hend : c.start + amount = 512 * i + j + 1 := by omega
      refine ⟨hc.offset_le, hcount, ?_, fun p h1 h2 ↦ hc.extend (hdir j hj') hfree h1 ?_⟩
      · show c.start + amount ≤ 262144
        omega
      · have h2' : p < c.start + amount := h2
        omega
  · exact .inr ⟨_, rfl, by simp, by simp [RunCursor.start], hpos,
      fun p h1 h2 ↦ by simp only [RunCursor.start] at h1; omega⟩

theorem firstPass_spec (h : KernelHeap) {amount : Nat} (hn : 1 ≤ amount) :
    (∃ c, forRange (firstPassTable h amount) 0 512 ⟨0, 0, 0⟩ = .inl c ∧ FirstFound h amount c) ∨
      ∃ c, forRange (firstPassTable h amount) 0 512 ⟨0, 0, 0⟩ = .inr c := by
  have hinit : FirstRun h amount (512 * 0) ⟨0, 0, 0⟩ :=
    ⟨by simp, by simp [RunCursor.start], hn, fun p _ h2 ↦ by omega⟩
  refine (forRange_rule (firstPassTable h amount) (fun i c ↦ FirstRun h amount (512 * i) c)
    (FirstFound h amount) hinit ?_ ?_).imp_right
    fun ⟨c, hc, _⟩ ↦ ⟨c, hc⟩
  · intro i c c' _ hi hc hbody
    rcases firstPassTable_spec (by omega) hc with ⟨c'', hb, -⟩ | ⟨c'', hb, hc''⟩
    · rw [hb] at hbody
      cases hbody
    · rw [hb] at hbody
      cases hbody
      exact hc''
  · intro i c c' _ hi hc hbody
    rcases firstPassTable_spec (by omega) hc with ⟨c'', hb, hc''⟩ | ⟨c'', hb, -⟩
    · rw [hb] at hbody
      cases hbody
      exact hc''
    · rw [hb] at hbody
      cases hbody

/-- The second pass is about to look at table `i`: the run is the tables right before it, none of
them in use, and it is still too short. -/
structure SecondRun (h : KernelHeap) (amount i : Nat) (c : RunCursor) : Prop where
  offset_eq : c.offset = 0
  stop : 512 * c.pageDirOffset + c.counter = 512 * i
  short : c.counter < amount
  unused : ∀ d, c.pageDirOffset ≤ d → d < i → present (h.dir d) = false

/-- What the second pass returns: tables that are not in use, with room for `amount` pages. -/
structure SecondFound (h : KernelHeap) (amount : Nat) (c : RunCursor) : Prop where
  offset_eq : c.offset = 0
  inside : 512 * c.pageDirOffset + amount ≤ heapPages
  unused : ∀ d, c.pageDirOffset ≤ d → 512 * d < 512 * c.pageDirOffset + amount →
    present (h.dir d) = false

theorem secondPass_spec (h : KernelHeap) {amount : Nat} (hn : 1 ≤ amount) :
    (∃ c, forRange (secondPassTable h amount) 0 512 ⟨0, 0, 0⟩ = .inl c ∧
        SecondFound h amount c) ∨
      ∃ c, forRange (secondPassTable h amount) 0 512 ⟨0, 0, 0⟩ = .inr c := by
  have hinit : SecondRun h amount 0 ⟨0, 0, 0⟩ :=
    ⟨rfl, rfl, hn, fun d _ h2 ↦ by omega⟩
  refine (forRange_rule (secondPassTable h amount) (SecondRun h amount) (SecondFound h amount)
    hinit ?_ ?_).imp_right fun ⟨c, hc, _⟩ ↦ ⟨c, hc⟩
  · intro i c c' _ hi hc hbody
    have hstop := hc.stop
    have hshort := hc.short
    rw [secondPassTable] at hbody
    split_ifs at hbody with hunused hlong
    · cases hbody
      refine ⟨hc.offset_eq, by simp only []; omega, by simpa using hlong, fun d h1 h2 ↦ ?_⟩
      rcases Nat.lt_succ_iff_lt_or_eq.mp h2 with hlt | rfl
      · exact hc.unused d h1 hlt
      · simpa using hunused
    · cases hbody
      exact ⟨rfl, by simp, hn, fun d h1 h2 ↦ by simp only [] at h1; omega⟩
  · intro i c c' _ hi hc hbody
    have hstop := hc.stop
    have hshort := hc.short
    rw [secondPassTable] at hbody
    split_ifs at hbody with hunused hlong
    cases hbody
    refine ⟨hc.offset_eq, ?_, fun d h1 h2 ↦ ?_⟩
    · show 512 * c.pageDirOffset + amount ≤ 262144
      omega
    · have h2' : 512 * d < 512 * c.pageDirOffset + amount := h2
      rcases Nat.lt_or_ge d i with hlt | hge
      · exact hc.unused d h1 hlt
      · have hdi : d = i := by omega
        rw [hdi]
        simpa using hunused

/-! ## What the three operations do -/

/-- **The heap's invariant**: a table that is not in use is empty, and the directory maps tables
and no large pages. -/
structure HeapInv (h : KernelHeap) : Prop where
  unused_empty : ∀ p, present (h.dir (p / 512)) = false → present (h.entry p) = false
  not_large : ∀ d, large (h.dir d) = false

theorem heapInv_atInit : HeapInv atInit :=
  ⟨fun _ _ ↦ show present 0#64 = false by decide, fun _ ↦ show large 0#64 = false by decide⟩

/-- What `kernel_allocate_4k_pages` did, when it returned `addr`: `n` pages that were free, from
page `start` on, are marked, and the tables they are in are in use. -/
structure Allocated (n : Nat) (h : KernelHeap) (addr : U64) (h' : KernelHeap) (start : Nat) :
    Prop where
  addr_eq : addr = heapPage start
  inside : start + n ≤ heapPages
  was_free : ∀ p, start ≤ p → p < start + n → present (h.entry p) = false
  entry_eq : ∀ p, h'.entry p =
    if start ≤ p ∧ p < start + n then tableWriteable ||| tablePresent else h.entry p
  in_use : ∀ p, start ≤ p → p < start + n → present (h'.dir (p / 512)) = true
  dir_mono : ∀ d, present (h.dir d) = true → h'.dir d = h.dir d
  large_eq : ∀ d, large (h'.dir d) = large (h.dir d)

theorem kernelAllocate4kPages_spec {phys : PhysOf} {h h' : KernelHeap} (hinv : HeapInv h)
    {n : Nat} (hn : 1 ≤ n) {addr : U64}
    (hcall : kernelAllocate4kPages phys n h = .ok (addr, h')) :
    ∃ start, Allocated n h addr h' start := by
  rw [kernelAllocate4kPages] at hcall
  rcases firstPass_spec h hn with ⟨c, hc, hfound⟩ | ⟨c, hc⟩
  · rw [hc] at hcall
    cases hcall
    obtain ⟨hoff, hcount, hin, hfree⟩ := hfound
    obtain ⟨hdir, hentry⟩ := markPages_spec c.counter c.pageDirOffset c.offset h hoff
    refine ⟨c.start, ⟨runAddress_eq ?_, hin, fun p h1 h2 ↦ (hfree p h1 h2).2, fun p ↦ ?_,
      fun p h1 h2 ↦ ?_, fun d _ ↦ by rw [hdir], fun d ↦ by rw [hdir]⟩⟩
    · have hin' : 512 * c.pageDirOffset + c.offset + n ≤ heapPages := hin
      omega
    · rw [hentry p, hcount]
      rfl
    · rw [hdir]
      exact (hfree p h1 h2).1
  · rw [hc] at hcall
    rcases secondPass_spec h hn with ⟨c', hc', hfound⟩ | ⟨c', hc'⟩
    · rw [hc'] at hcall
      cases hcall
      obtain ⟨hoff, hin, hunused⟩ := hfound
      have hstart : c'.start = 512 * c'.pageDirOffset := by rw [RunCursor.start, hoff]; rfl
      obtain ⟨hdir, hentry⟩ := markNewPages_spec phys n c'.pageDirOffset c'.offset
        (h.openTable phys c'.pageDirOffset) (by omega)
      have hdir' : ∀ d, (markNewPages phys n c'.pageDirOffset c'.offset
          (h.openTable phys c'.pageDirOffset)).dir d =
          if c'.pageDirOffset ≤ d ∧ 512 * d < 512 * c'.pageDirOffset + n then h.opened phys d
          else h.dir d := by
        intro d
        rw [hdir d, hoff, opened, dir_openTable]
        by_cases hd : d = c'.pageDirOffset
        · subst hd
          rw [if_neg (by omega), if_pos rfl, if_pos (by omega)]
        · rw [if_neg hd]
          split_ifs <;> first | rfl | omega
      refine ⟨c'.start, ⟨runAddress_eq (by rw [hoff]; omega), by rwa [hstart], fun p h1 h2 ↦ ?_,
        hentry, fun p h1 h2 ↦ ?_, fun d hd ↦ ?_, fun d ↦ ?_⟩⟩
      · rw [hstart] at h1 h2
        exact hinv.unused_empty p (hunused (p / 512) (by omega) (by omega))
      · rw [hstart] at h1 h2
        rw [hdir', if_pos (by omega)]
        exact present_opened phys h _
      · rw [hdir']
        split
        · next hd' => rw [hunused d hd'.1 hd'.2] at hd; cases hd
        · rfl
      · rw [hdir']
        split
        · exact large_opened phys h d
        · rfl
    · rw [hc'] at hcall
      cases hcall

theorem Allocated.heapInv {n start : Nat} {h h' : KernelHeap} {addr : U64}
    (ha : Allocated n h addr h' start) (hinv : HeapInv h) : HeapInv h' := by
  refine ⟨fun p hp ↦ ?_, fun d ↦ by rw [ha.large_eq d]; exact hinv.not_large d⟩
  rw [ha.entry_eq p]
  split
  · next hin => rw [ha.in_use p hin.1 hin.2] at hp; cases hp
  · cases hd : present (h.dir (p / 512)) with
    | false => exact hinv.unused_empty p hd
    | true => rw [ha.dir_mono _ hd, hd] at hp; cases hp

/-- It stops only for want of pages. -/
theorem kernelAllocate4kPages_error {phys : PhysOf} {h : KernelHeap} {n : Nat} {e : Halt}
    (hcall : kernelAllocate4kPages phys n h = .error e) : e = .outOfVirtualMemory := by
  rw [kernelAllocate4kPages] at hcall
  split at hcall
  · cases hcall
  · split at hcall
    · cases hcall
    · cases hcall
      rfl

/-- **A single page is found** wherever there is one. -/
theorem kernelAllocate4kPages_one (phys : PhysOf) {h : KernelHeap} (hinv : HeapInv h) {p : Nat}
    (hp : p < heapPages) (hfree : present (h.entry p) = false) :
    ∃ r, kernelAllocate4kPages phys 1 h = .ok r := by
  rw [kernelAllocate4kPages]
  split
  · exact ⟨_, rfl⟩
  next c hfirst =>
  split
  · exact ⟨_, rfl⟩
  next c' hsecond =>
  have hi : p / 512 < 512 := by
    rw [heapPages] at hp
    omega
  -- the second pass went over the page's table, so it is in use
  obtain ⟨t, t', hbody⟩ := forRange_inr hsecond (Nat.zero_le (p / 512)) (by omega)
  have hdir : present (h.dir (p / 512)) = true := by
    rw [secondPassTable] at hbody
    split_ifs at hbody with hunused hlong
    · omega
    · simpa using hunused
  -- so the first pass went over the page
  obtain ⟨u, u', htable⟩ := forRange_inr hfirst (Nat.zero_le (p / 512)) (by omega)
  rw [firstPassTable, hdir, hinv.not_large, Bool.not_false, Bool.and_true, if_pos rfl] at htable
  obtain ⟨v, v', hpage⟩ := forRange_inr htable (Nat.zero_le (p % 512)) (by omega)
  rw [firstPassPage] at hpage
  split_ifs at hpage with hused hlong
  · rw [← entry, hfree] at hused
    cases hused
  · omega

/-- `kernel_free_4k_pages` clears the entries its addresses select. -/
theorem kernelFree4kPages_spec (n : Nat) (virt : U64) (h : KernelHeap) :
    (kernelFree4kPages n virt h).dir = h.dir ∧
      (∀ k < n, (kernelFree4kPages n virt h).entry (heapIndex (pageAt virt k)) = 0#64) ∧
      ∀ p, (∀ k < n, p ≠ heapIndex (pageAt virt k)) →
        (kernelFree4kPages n virt h).entry p = h.entry p := by
  induction n generalizing virt h with
  | zero => exact ⟨rfl, fun k hk ↦ by omega, fun p _ ↦ rfl⟩
  | succ n ih =>
    obtain ⟨hdir, hclear, hrest⟩ := ih (virt + 0x1000#64)
      (h.setEntry (pdeIndex virt) (ptIndex virt) 0#64)
    rw [kernelFree4kPages]
    refine ⟨hdir, fun k hk ↦ ?_, fun p hp ↦ ?_⟩
    · cases k with
      | zero =>
        rw [pageAt_zero]
        by_cases hagain : ∀ k < n, heapIndex virt ≠ heapIndex (pageAt (virt + 0x1000#64) k)
        · rw [hrest _ hagain, entry_setEntry_heapIndex, if_pos rfl]
        · simp only [not_forall, not_not] at hagain
          obtain ⟨k, hk', heq⟩ := hagain
          rw [heq]
          exact hclear k hk'
      | succ k =>
        rw [pageAt_succ]
        exact hclear k (by omega)
    · have hfirst := hp 0 (by omega)
      rw [pageAt_zero] at hfirst
      rw [hrest p fun k hk ↦ by rw [← pageAt_succ]; exact hp (k + 1) (by omega),
        entry_setEntry_heapIndex, if_neg hfirst]

/-- `kernel_map_virtual_memory_4k` writes the entries its addresses select, one frame after the
other. -/
theorem kernelMapVirtualMemory4k_spec (flags : U64) {n : Nat} (hn : n ≤ heapPages)
    (phys virt : U64) (h : KernelHeap) :
    (kernelMapVirtualMemory4k flags n phys virt h).dir = h.dir ∧
      (∀ k < n, (kernelMapVirtualMemory4k flags n phys virt h).entry (heapIndex (pageAt virt k)) =
        setPageFrame flags (pageAt phys k)) ∧
      ∀ p, (∀ k < n, p ≠ heapIndex (pageAt virt k)) →
        (kernelMapVirtualMemory4k flags n phys virt h).entry p = h.entry p := by
  induction n generalizing phys virt h with
  | zero => exact ⟨rfl, fun k hk ↦ by omega, fun p _ ↦ rfl⟩
  | succ n ih =>
    obtain ⟨hdir, hset, hrest⟩ := ih (by omega) (phys + 0x1000#64) (virt + 0x1000#64)
      (h.setEntry (pdeIndex virt) (ptIndex virt) (setPageFrame flags phys))
    rw [kernelMapVirtualMemory4k]
    refine ⟨hdir, fun k hk ↦ ?_, fun p hp ↦ ?_⟩
    · cases k with
      | zero =>
        -- no later page of the call selects the same entry: there are not enough of them
        have hlater : ∀ k < n, heapIndex virt ≠ heapIndex (pageAt (virt + 0x1000#64) k) := by
          intro k hk
          have hlt := heapIndex_lt virt
          rw [← pageAt_succ, heapIndex_pageAt]
          rw [heapPages] at hn hlt ⊢
          omega
        rw [pageAt_zero, pageAt_zero, hrest _ hlater, entry_setEntry_heapIndex, if_pos rfl]
      | succ k =>
        rw [pageAt_succ, pageAt_succ]
        exact hset k (by omega)
    · have hfirst := hp 0 (by omega)
      rw [pageAt_zero] at hfirst
      rw [hrest p fun k hk ↦ by rw [← pageAt_succ]; exact hp (k + 1) (by omega),
        entry_setEntry_heapIndex, if_neg hfirst]

/-- Mapping one page writes one entry. -/
theorem entry_map_one (h : KernelHeap) (flags frame virt : U64) (p : Nat) :
    (kernelMapVirtualMemory4k flags 1 frame virt h).entry p =
      if p = heapIndex virt then setPageFrame flags frame else h.entry p :=
  entry_setEntry_heapIndex h virt _ p

/-- **`virtual_to_physical_addr` undoes the encoding** of a frame below 4 GiB. -/
theorem virtualToPhysicalAddr_eq {h : KernelHeap} (hinv : HeapInv h) {virt : U64}
    (hvirt : pml4Index virt = 511) (hframe : frameOf (h.entry (heapIndex virt)) < 2 ^ 20) :
    h.virtualToPhysicalAddr virt = blockAddr (frameOf (h.entry (heapIndex virt))) := by
  rw [virtualToPhysicalAddr, if_neg (by omega), hinv.not_large, if_neg (by decide),
    ← entry_heapIndex, getPageFrame_eq]
  generalize frameOf (h.entry (heapIndex virt)) = b at hframe ⊢
  refine BitVec.eq_of_toNat_eq ?_
  rw [toNat_blockAddr (by omega), BitVec.toNat_setWidth, BitVec.toNat_shiftLeft,
    BitVec.toNat_ofNat, Nat.shiftLeft_eq]
  omega

/-! ## Runs -/

/-- The runs of the heap from `initialize_virtual_memory` on: allocations, mappings inside a live
range with a present entry, and frees of a live range.  The last argument lists the live ranges, as
the address and the number of pages of the allocation. -/
inductive HeapReaches (phys : PhysOf) : KernelHeap → List (U64 × Nat) → Prop
  | init : HeapReaches phys atInit []
  | allocate {h h' : KernelHeap} {live : List (U64 × Nat)} {n : Nat} {addr : U64}
      (hr : HeapReaches phys h live) (hn : 1 ≤ n)
      (hcall : kernelAllocate4kPages phys n h = .ok (addr, h')) :
      HeapReaches phys h' ((addr, n) :: live)
  | map {h : KernelHeap} {live : List (U64 × Nat)} {x : U64 × Nat} {frame virt flags : U64}
      {m : Nat} (hr : HeapReaches phys h live) (hx : x ∈ live) (hlo : x.1.toNat ≤ virt.toNat)
      (hhi : virt.toNat + 4096 * m ≤ x.1.toNat + 4096 * x.2) (hflags : present flags = true) :
      HeapReaches phys (kernelMapVirtualMemory4k flags m frame virt h) live
  | free {h : KernelHeap} {live : List (U64 × Nat)} {x : U64 × Nat} (hr : HeapReaches phys h live)
      (hx : x ∈ live) : HeapReaches phys (kernelFree4kPages x.2 x.1 h) (live.erase x)

/-- The pages of a range. -/
def rangePages (x : U64 × Nat) : Set Nat := {p | heapIndex x.1 ≤ p ∧ p < heapIndex x.1 + x.2}

/-- **What every run keeps**: the live ranges are made of heap pages, all of them present, and no
page is in two of them. -/
structure LiveInv (h : KernelHeap) (live : List (U64 × Nat)) : Prop extends HeapInv h where
  addr_eq : ∀ x ∈ live, x.1 = heapPage (heapIndex x.1)
  inside : ∀ x ∈ live, heapIndex x.1 + x.2 ≤ heapPages
  used : ∀ x ∈ live, ∀ p ∈ rangePages x, present (h.entry p) = true
  apart : live.Pairwise fun x y ↦ Disjoint (rangePages x) (rangePages y)

/-- The pages of a range, counted from its address. -/
theorem mem_rangePages_iff {x : U64 × Nat} (hin : heapIndex x.1 + x.2 ≤ heapPages) {p : Nat} :
    p ∈ rangePages x ↔ ∃ k < x.2, p = heapIndex (pageAt x.1 k) := by
  constructor
  · rintro ⟨h1, h2⟩
    exact ⟨p - heapIndex x.1, by omega, by rw [heapIndex_pageAt_of_lt (by omega)]; omega⟩
  · rintro ⟨k, hk, rfl⟩
    rw [heapIndex_pageAt_of_lt (by omega)]
    exact ⟨by omega, by omega⟩

theorem Allocated.liveInv {n start : Nat} {h h' : KernelHeap} {addr : U64}
    {live : List (U64 × Nat)} (ha : Allocated n h addr h' start) (hn : 1 ≤ n)
    (hl : LiveInv h live) : LiveInv h' ((addr, n) :: live) := by
  have hin := ha.inside
  have hidx : heapIndex addr = start := by
    rw [ha.addr_eq, heapIndex_heapPage (by omega)]
  refine ⟨ha.heapInv hl.toHeapInv, ?_, ?_, ?_, ?_⟩
  · rintro x (_ | ⟨_, hx⟩)
    · show addr = heapPage (heapIndex addr)
      rw [hidx, ha.addr_eq]
    · exact hl.addr_eq x hx
  · rintro x (_ | ⟨_, hx⟩)
    · show heapIndex addr + n ≤ heapPages
      rw [hidx]
      exact hin
    · exact hl.inside x hx
  · rintro x (_ | ⟨_, hx⟩) p hp
    · have hp' : heapIndex addr ≤ p ∧ p < heapIndex addr + n := hp
      rw [hidx] at hp'
      rw [ha.entry_eq p, if_pos hp']
      decide
    · rw [ha.entry_eq p]
      split
      · decide
      · exact hl.used x hx p hp
  · refine List.Pairwise.cons (fun x hx ↦ Set.disjoint_left.mpr fun p hp hpx ↦ ?_) hl.apart
    have hp' : heapIndex addr ≤ p ∧ p < heapIndex addr + n := hp
    rw [hidx] at hp'
    have hfree := ha.was_free p hp'.1 hp'.2
    rw [hl.used x hx p hpx] at hfree
    cases hfree

/-- Rewriting entries of a live range with present ones changes nothing the invariant says. -/
theorem LiveInv.of_map {h : KernelHeap} {live : List (U64 × Nat)} (hl : LiveInv h live)
    {x : U64 × Nat} (hx : x ∈ live) {frame virt flags : U64} {m : Nat}
    (hlo : x.1.toNat ≤ virt.toNat) (hhi : virt.toNat + 4096 * m ≤ x.1.toNat + 4096 * x.2)
    (hflags : present flags = true) :
    LiveInv (kernelMapVirtualMemory4k flags m frame virt h) live := by
  have hin := hl.inside x hx
  have hidx := heapIndex_lt x.1
  have haddr : x.1.toNat = (heapPage (heapIndex x.1)).toNat := congrArg _ (hl.addr_eq x hx)
  rw [toNat_heapPage hidx] at haddr
  have hpage : ∀ k < m, heapIndex (pageAt virt k) ∈ rangePages x := by
    intro k hk
    show heapIndex x.1 ≤ heapIndex (pageAt virt k) ∧
      heapIndex (pageAt virt k) < heapIndex x.1 + x.2
    rw [heapIndex_eq (pageAt virt k), toNat_pageAt]
    rw [heapPages] at hin hidx ⊢
    omega
  have hm : m ≤ heapPages := by omega
  obtain ⟨hdir, hset, hrest⟩ := kernelMapVirtualMemory4k_spec flags hm frame virt h
  have hsel : ∀ p, (∃ k < m, p = heapIndex (pageAt virt k)) ∨
      ∀ k < m, p ≠ heapIndex (pageAt virt k) := by
    intro p
    by_cases hp : ∃ k < m, p = heapIndex (pageAt virt k)
    · exact .inl hp
    · exact .inr fun k hk heq ↦ hp ⟨k, hk, heq⟩
  refine ⟨⟨fun p hp ↦ ?_, fun d ↦ by rw [hdir]; exact hl.not_large d⟩, hl.addr_eq, hl.inside,
    fun y hy p hp ↦ ?_, hl.apart⟩
  · rw [hdir] at hp
    rcases hsel p with ⟨k, hk, rfl⟩ | hno
    · have hempty := hl.unused_empty _ hp
      rw [hl.used x hx _ (hpage k hk)] at hempty
      cases hempty
    · rw [hrest p hno]
      exact hl.unused_empty p hp
  · rcases hsel p with ⟨k, hk, rfl⟩ | hno
    · rw [hset k hk, present_setPageFrame]
      exact hflags
    · rw [hrest p hno]
      exact hl.used y hy p hp

theorem LiveInv.free {h : KernelHeap} {live : List (U64 × Nat)} (hl : LiveInv h live)
    {x : U64 × Nat} (hx : x ∈ live) : LiveInv (kernelFree4kPages x.2 x.1 h) (live.erase x) := by
  have hin := hl.inside x hx
  obtain ⟨hdir, hclear, hrest⟩ := kernelFree4kPages_spec x.2 x.1 h
  have hsub : ∀ y ∈ live.erase x, y ∈ live := fun y hy ↦ List.mem_of_mem_erase hy
  have hapart : (x :: live.erase x).Pairwise fun x y ↦ Disjoint (rangePages x) (rangePages y) :=
    (List.perm_cons_erase hx).pairwise hl.apart fun {_ _} hxy ↦ hxy.symm
  rw [List.pairwise_cons] at hapart
  refine ⟨⟨fun p hp ↦ ?_, fun d ↦ by rw [hdir]; exact hl.not_large d⟩,
    fun y hy ↦ hl.addr_eq y (hsub y hy), fun y hy ↦ hl.inside y (hsub y hy), fun y hy p hp ↦ ?_,
    hapart.2⟩
  · rw [hdir] at hp
    by_cases hpx : p ∈ rangePages x
    · obtain ⟨k, hk, rfl⟩ := (mem_rangePages_iff hin).mp hpx
      rw [hclear k hk]
      decide
    · rw [hrest p fun k hk heq ↦ hpx ((mem_rangePages_iff hin).mpr ⟨k, hk, heq⟩)]
      exact hl.unused_empty p hp
  · have hpx : p ∉ rangePages x := Set.disjoint_right.mp (hapart.1 y hy) hp
    rw [hrest p fun k hk heq ↦ hpx ((mem_rangePages_iff hin).mpr ⟨k, hk, heq⟩)]
    exact hl.used y (hsub y hy) p hp

/-- Only the present bits of the entries matter. -/
theorem LiveInv.congr {h h' : KernelHeap} {live : List (U64 × Nat)} (hl : LiveInv h live)
    (hdir : h'.dir = h.dir) (hentry : ∀ p, present (h'.entry p) = present (h.entry p)) :
    LiveInv h' live := by
  refine ⟨⟨fun p hp ↦ ?_, fun d ↦ by rw [hdir]; exact hl.not_large d⟩, hl.addr_eq, hl.inside,
    fun x hx p hp ↦ ?_, hl.apart⟩
  · rw [hdir] at hp
    rw [hentry p]
    exact hl.unused_empty p hp
  · rw [hentry p]
    exact hl.used x hx p hp

/-- The pages of a live range are above the canonical hole. -/
theorem LiveInv.pml4Index_eq {h : KernelHeap} {live : List (U64 × Nat)} (hl : LiveInv h live)
    {x : U64 × Nat} (hx : x ∈ live) {i : Nat} (hi : i < x.2) : pml4Index (pageAt x.1 i) = 511 := by
  have hin := hl.inside x hx
  have haddr : x.1.toNat = (heapPage (heapIndex x.1)).toNat := congrArg _ (hl.addr_eq x hx)
  rw [toNat_heapPage (by omega)] at haddr
  rw [heapPages] at hin
  rw [Borrrdex.pml4Index_eq, toNat_pageAt]
  omega

/-- A page of a live range is determined by its number. -/
theorem LiveInv.pageAt_inj {h : KernelHeap} {live : List (U64 × Nat)} (hl : LiveInv h live)
    {x y : U64 × Nat} (hx : x ∈ live) (hy : y ∈ live) {i j : Nat} (hi : i < x.2) (hj : j < y.2)
    (heq : heapIndex (pageAt x.1 i) = heapIndex (pageAt y.1 j)) :
    pageAt x.1 i = pageAt y.1 j := by
  have hxi := hl.inside x hx
  have hyj := hl.inside y hy
  rw [heapIndex_pageAt_of_lt (by omega), heapIndex_pageAt_of_lt (by omega)] at heq
  rw [hl.addr_eq x hx, hl.addr_eq y hy, pageAt_heapPage, pageAt_heapPage, heq]

theorem heapReaches_liveInv {phys : PhysOf} {h : KernelHeap} {live : List (U64 × Nat)}
    (hr : HeapReaches phys h live) : LiveInv h live := by
  induction hr with
  | init => exact ⟨heapInv_atInit, by simp, by simp, by simp, List.Pairwise.nil⟩
  | allocate _ hn hcall ih =>
    obtain ⟨start, ha⟩ := kernelAllocate4kPages_spec ih.toHeapInv hn hcall
    exact ha.liveInv hn ih
  | map _ hx hlo hhi hflags ih => exact ih.of_map hx hlo hhi hflags
  | free _ hx ih => exact ih.free hx

/-- **Live ranges, along every run.**  An allocation returns the page-aligned address of `n`
pages of the heap gigabyte that are in no live range; the `n` entries their indices select become
present, and their directory entries are, and no other entry changes.  Freeing a live range clears
the `n` entries it selects, which were present, and no other. -/
theorem heap_run_spec {phys : PhysOf} {h : KernelHeap} {live : List (U64 × Nat)}
    (hr : HeapReaches phys h live) :
    (∀ n addr h', 1 ≤ n → kernelAllocate4kPages phys n h = .ok (addr, h') →
      addr.toNat % 4096 = 0 ∧ 0xFFFFFFFFC0000000 ≤ addr.toNat ∧ addr.toNat + 4096 * n ≤ 2 ^ 64 ∧
      (∀ x ∈ live, ∀ k < n, ∀ l < x.2, pageAt addr k ≠ pageAt x.1 l) ∧
      (∀ k < n, ∀ l < n, pdeIndex (pageAt addr k) = pdeIndex (pageAt addr l) →
        ptIndex (pageAt addr k) = ptIndex (pageAt addr l) → k = l) ∧
      (∀ k < n,
        present (h.tables (pdeIndex (pageAt addr k)) (ptIndex (pageAt addr k))) = false ∧
        present (h'.tables (pdeIndex (pageAt addr k)) (ptIndex (pageAt addr k))) = true ∧
        present (h'.dir (pdeIndex (pageAt addr k))) = true) ∧
      ∀ i < 512, ∀ j < 512,
        (∀ k < n, ¬(i = pdeIndex (pageAt addr k) ∧ j = ptIndex (pageAt addr k))) →
        h'.tables i j = h.tables i j) ∧
    ∀ x ∈ live,
      (∀ k < x.2,
        present (h.tables (pdeIndex (pageAt x.1 k)) (ptIndex (pageAt x.1 k))) = true ∧
        (kernelFree4kPages x.2 x.1 h).tables (pdeIndex (pageAt x.1 k)) (ptIndex (pageAt x.1 k)) =
          0#64) ∧
      ∀ i < 512, ∀ j < 512,
        (∀ k < x.2, ¬(i = pdeIndex (pageAt x.1 k) ∧ j = ptIndex (pageAt x.1 k))) →
        (kernelFree4kPages x.2 x.1 h).tables i j = h.tables i j := by
  have hl := heapReaches_liveInv hr
  -- the entry in place `j` of table `i` is selected by an address iff its number is
  have hsel : ∀ {i j : Nat} {virt : U64}, j < 512 →
      512 * i + j = heapIndex virt → i = pdeIndex virt ∧ j = ptIndex virt := by
    intro i j virt hj heq
    rw [← heapIndex_div, ← heapIndex_mod, ← heq]
    omega
  refine ⟨fun n addr h' hn hcall ↦ ?_, fun x hx ↦ ?_⟩
  · obtain ⟨start, ha⟩ := kernelAllocate4kPages_spec hl.toHeapInv hn hcall
    have hin := ha.inside
    have hidx : heapIndex addr = start := by rw [ha.addr_eq, heapIndex_heapPage (by omega)]
    have hk : ∀ k < n, heapIndex (pageAt addr k) = start + k := fun k hk ↦ by
      rw [heapIndex_pageAt_of_lt (by omega), hidx]
    have hnum : addr.toNat = 0xFFFFFFFFC0000000 + 4096 * start := by
      rw [ha.addr_eq, toNat_heapPage (by omega)]
    have hin' : start + n ≤ 262144 := hin
    refine ⟨by omega, by omega, by omega, fun x hx k hk' l hl' heq ↦ ?_,
      fun k hk' l hl' h1 h2 ↦ ?_, fun k hk' ↦ ?_, fun i hi j hj hno ↦ ?_⟩
    · have hfree := ha.was_free (start + k) (by omega) (by omega)
      rw [← hk k hk', heq, hl.used x hx _
        ((mem_rangePages_iff (hl.inside x hx)).mpr ⟨l, hl', rfl⟩)] at hfree
      cases hfree
    · have hkl : heapIndex (pageAt addr k) = heapIndex (pageAt addr l) := by
        rw [heapIndex, heapIndex, h1, h2]
      rw [hk k hk', hk l hl'] at hkl
      omega
    · rw [← entry_heapIndex, ← entry_heapIndex, ← heapIndex_div, hk k hk', ha.entry_eq,
        if_pos ⟨by omega, by omega⟩]
      exact ⟨ha.was_free _ (by omega) (by omega), by decide, ha.in_use _ (by omega) (by omega)⟩
    · rw [← entry_mul_add h' hj, ← entry_mul_add h hj, ha.entry_eq, if_neg]
      rintro ⟨h1, h2⟩
      have hlt : 512 * i + j - start < n := by omega
      refine hno _ hlt (hsel hj ?_)
      rw [hk _ hlt]
      omega
  · obtain ⟨-, hclear, hrest⟩ := kernelFree4kPages_spec x.2 x.1 h
    refine ⟨fun k hk ↦ ?_, fun i hi j hj hno ↦ ?_⟩
    · rw [← entry_heapIndex, ← entry_heapIndex]
      exact ⟨hl.used x hx _ ((mem_rangePages_iff (hl.inside x hx)).mpr ⟨k, hk, rfl⟩), hclear k hk⟩
    · rw [← entry_mul_add _ hj, ← entry_mul_add h hj]
      exact hrest _ fun k hk heq ↦ hno k hk (hsel hj heq)

/-- The first allocation after `initialize_virtual_memory` returns the first page of the heap. -/
theorem first_allocation : ∃ h',
    kernelAllocate4kPages (fun _ ↦ 0#64) 1 atInit = .ok (0xFFFFFFFFC0000000#64, h') := by
  have haddr : (kernelAllocate4kPages (fun _ ↦ 0#64) 1 atInit).toOption.map Prod.fst =
      some 0xFFFFFFFFC0000000#64 := by decide +kernel
  cases hcall : kernelAllocate4kPages (fun _ ↦ 0#64) 1 atInit with
  | error e =>
    rw [hcall] at haddr
    cases haddr
  | ok r =>
    rw [hcall] at haddr
    exact ⟨r.2, by rw [← Option.some.inj haddr]⟩

theorem heap_run_spec_first_page : ∃ h', HeapReaches (fun _ ↦ 0#64) atInit [] ∧
    kernelAllocate4kPages (fun _ ↦ 0#64) 1 atInit = .ok (0xFFFFFFFFC0000000#64, h') ∧
    present (h'.dir (pdeIndex (pageAt 0xFFFFFFFFC0000000#64 0))) = true := by
  obtain ⟨h', hcall⟩ := first_allocation
  refine ⟨h', .init, hcall, ?_⟩
  obtain ⟨-, -, -, -, -, hentries, -⟩ := (heap_run_spec .init).1 1 _ h' (by decide) hcall
  exact (hentries 0 (by decide)).2.2

end KernelHeap
end Borrrdex
