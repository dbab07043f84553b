import Borrrdex.Memory.FreshPages

/-!
# What mapping pages does to the hardware's walk

`map_virtual_memory_4k` works on the kernel's picture of a page map, the arrays of pointers, and
the hardware walks the other one, the frames.  `Shadows` says that the two agree: every directory
and every table the arrays point to is mapped at its pointer, and is framed by the entry above it.
A map is then a partial function from page numbers to the words of its tables, `word`; mapping a
page changes it at one place, and, where the page's table is new, fills in 511 zeros.

`map_virtual_memory_walk` reads that off for the walk.  It needs what the map's directories really
are, cleared: `create_page_table` keeps the bits it finds in a directory entry, and one left over
page-size bit there makes the hardware take the new table for a large page.
-/

set_option autoImplicit false

namespace Borrrdex

open KernelMem KernelHeap PhysAllocator PageWalk

/-- The indices of an address, as the hardware uses them. -/
def walkPath (virt : U64) : List Nat :=
  [pml4Index virt, pdptIndex virt, pdeIndex virt, ptIndex virt]

namespace PageMap

/-! ## Well-formed page maps -/

/-- The block of the PML4. -/
def pml4Frame (m : PageMap) : Nat := (m.pml4Phys >>> 12).toNat

/-- The block of the PDPT. -/
def pdptFrame (m : PageMap) : Nat := (m.pdptPhys >>> 12).toNat

/-- The block of directory `i`. -/
def dirFrame (m : PageMap) (i : Nat) : Nat := (m.pageDirsPhys i >>> 12).toNat

/-- The block of the table that entry `j` of directory `i` frames. -/
def tableFrame (k : KernelMem) (m : PageMap) (i j : Nat) : Nat := frameOf (k.ram (m.dirFrame i) j)

/-- The tables of a page map, of all four levels. -/
inductive Node
  | pml4
  | pdpt
  | dir (i : Nat)
  | table (i j : Nat)

/-- The table is there. -/
def Live (m : PageMap) : Node → Prop
  | .pml4 => True
  | .pdpt => True
  | .dir i => i < 512
  | .table i j => i < 512 ∧ j < 512 ∧ m.pageTables i j ≠ 0#64

/-- The block a table is in. -/
def nodeFrame (k : KernelMem) (m : PageMap) : Node → Nat
  | .pml4 => m.pml4Frame
  | .pdpt => m.pdptFrame
  | .dir i => m.dirFrame i
  | .table i j => tableFrame k m i j

/-- **The two pictures agree**: what the pointers are mapped to is what the entries frame. -/
structure Shadows (k : KernelMem) (m : PageMap) : Prop where
  /-- A directory is mapped at its pointer. -/
  dir_ptr : ∀ i < 512, k.heap.translate (m.pageDirs i) = some (m.dirFrame i)
  /-- A table is mapped at its pointer. -/
  table_ptr : ∀ i < 512, ∀ j < 512, m.pageTables i j ≠ 0#64 →
    k.heap.translate (m.pageTables i j) = some (tableFrame k m i j)
  /-- An entry is present exactly where there is a table. -/
  present_iff : ∀ i < 512, ∀ j < 512,
    present (k.ram (m.dirFrame i) j) = true ↔ m.pageTables i j ≠ 0#64
  /-- And then frames it. -/
  table_not_large : ∀ i < 512, ∀ j < 512, m.pageTables i j ≠ 0#64 →
    large (k.ram (m.dirFrame i) j) = false
  /-- No two tables share a block. -/
  distinct : ∀ x y, m.Live x → m.Live y → nodeFrame k m x = nodeFrame k m y → x = y

/-- A page map as the hardware can walk it. -/
structure WellFormed (k : KernelMem) (m : PageMap) : Prop extends Shadows k m where
  /-- The first entry of the PML4 frames the PDPT. -/
  pml4_entry : present (k.ram m.pml4Frame 0) = true ∧ frameOf (k.ram m.pml4Frame 0) = m.pdptFrame
  /-- The entries of the PDPT frame the directories, for the user to write. -/
  pdpt_entry : ∀ i < 512, present (k.ram m.pdptFrame i) = true ∧
    k.ram m.pdptFrame i &&& tableWriteable ≠ 0#64 ∧ k.ram m.pdptFrame i &&& pageUser ≠ 0#64 ∧
    large (k.ram m.pdptFrame i) = false ∧ frameOf (k.ram m.pdptFrame i) = m.dirFrame i

/-- The allocator does not take a block of the map for a free one. -/
def Owned (k : KernelMem) (m : PageMap) : Prop :=
  ∀ x, m.Live x → nodeFrame k m x ∉ k.blocks.freeBlocks

/-- No directory entry that is not present has its page-size bit set. -/
def StaleFree (k : KernelMem) (m : PageMap) : Prop :=
  ∀ i < 512, ∀ j < 512, present (k.ram (m.dirFrame i) j) = false →
    large (k.ram (m.dirFrame i) j) = false

/-- **What the operations on a page map keep.** -/
structure MapInv (k : KernelMem) (m : PageMap) : Prop extends KernelInv k, Shadows k m where
  owned : Owned k m
  stale : StaleFree k m

/-- What the rest of the kernel may do: it changes no directory of the map, unmaps none of its
tables and frees none of its blocks. -/
structure LeavesAlone (m : PageMap) (k k' : KernelMem) : Prop extends KernelInv k' where
  dir_ptr : ∀ i < 512, k'.heap.translate (m.pageDirs i) = k.heap.translate (m.pageDirs i)
  table_ptr : ∀ i < 512, ∀ j < 512, m.pageTables i j ≠ 0#64 →
    k'.heap.translate (m.pageTables i j) = k.heap.translate (m.pageTables i j)
  dir_ram : ∀ i < 512, ∀ j < 512, k'.ram (m.dirFrame i) j = k.ram (m.dirFrame i) j
  still_owned : ∀ x, m.Live x → nodeFrame k m x ∉ k.blocks.freeBlocks →
    nodeFrame k m x ∉ k'.blocks.freeBlocks

/-- Whatever leaves the map alone keeps its invariant. -/
theorem MapInv.of_leavesAlone {k k' : KernelMem} {m : PageMap} (hm : MapInv k m)
    (h : LeavesAlone m k k') : MapInv k' m := by
  have hframe : ∀ x, m.Live x → nodeFrame k' m x = nodeFrame k m x := by
    intro x hx
    cases x with
    | table i j => exact congrArg frameOf (h.dir_ram i hx.1 j hx.2.1)
    | pml4 => rfl
    | pdpt => rfl
    | dir i => rfl
  refine ⟨h.toKernelInv, ⟨fun i hi ↦ (h.dir_ptr i hi).trans (hm.dir_ptr i hi), ?_, ?_, ?_, ?_⟩,
    ?_, ?_⟩
  · intro i hi j hj ht
    rw [h.table_ptr i hi j hj ht, tableFrame, h.dir_ram i hi j hj]
    exact hm.table_ptr i hi j hj ht
  · intro i hi j hj
    rw [h.dir_ram i hi j hj]
    exact hm.present_iff i hi j hj
  · intro i hi j hj ht
    rw [h.dir_ram i hi j hj]
    exact hm.table_not_large i hi j hj ht
  · intro x y hx hy heq
    rw [hframe x hx, hframe y hy] at heq
    exact hm.distinct x y hx hy heq
  · intro x hx
    rw [hframe x hx]
    exact h.still_owned x hx (hm.owned x hx)
  · intro i hi j hj
    rw [h.dir_ram i hi j hj]
    exact hm.stale i hi j hj

/-- Anything that takes fresh pages only and leaves the directories alone keeps the invariant. -/
theorem MapInv.of_extends {k k' : KernelMem} {m : PageMap} (hm : MapInv k m) (hext : Extends k k')
    (hram : ∀ i < 512, ∀ j < 512, k'.ram (m.dirFrame i) j = k.ram (m.dirFrame i) j) :
    MapInv k' m := by
  refine hm.of_leavesAlone ⟨hext.toKernelInv, fun i hi ↦ ?_, fun i hi j hj ht ↦ ?_, hram,
    fun x _ hx hfree ↦ hx (hext.freeBlocks_subset hfree)⟩
  · rw [hext.translate_mono _ _ (hm.dir_ptr i hi), hm.dir_ptr i hi]
  · rw [hext.translate_mono _ _ (hm.table_ptr i hi j hj ht), hm.table_ptr i hi j hj ht]

/-- A free block is in no table of the map. -/
theorem MapInv.ne_of_free {k : KernelMem} {m : PageMap} (hm : MapInv k m) {b : Nat}
    (hb : b ∈ k.blocks.freeBlocks) {x : Node} (hx : m.Live x) : nodeFrame k m x ≠ b := by
  rintro rfl
  exact hm.owned x hx hb

/-! ## A new table -/

/-- What `create_page_table` writes to the directory entry. -/
def tableEntry (old : U64) (b : Nat) : U64 := setPageFrame old (blockAddr b) ||| userFlags

theorem present_tableEntry (old : U64) (b : Nat) : present (tableEntry old b) = true := by
  rw [tableEntry, present_or, show present userFlags = true by decide, Bool.or_true]

theorem large_tableEntry (old : U64) (b : Nat) : large (tableEntry old b) = large old := by
  rw [tableEntry, large_or, large_setPageFrame, show large userFlags = false by decide,
    Bool.or_false]

theorem frameOf_tableEntry (old : U64) {b : Nat} (hb : b < 2 ^ 40) :
    frameOf (tableEntry old b) = b := by
  rw [tableEntry, frameOf_or (by decide), frameOf_setPageFrame, frameOf_blockAddr hb]

/-- The memory after `create_page_table` has cleared block `b` and made entry `j` of the directory
in block `d` frame it. -/
def tableRam (ram : Nat → Nat → U64) (d j b : Nat) : Nat → Nat → U64 :=
  Function.update (Function.update ram b fun _ ↦ 0#64) d
    (Function.update (ram d) j (tableEntry (ram d j) b))

theorem tableRam_entry (ram : Nat → Nat → U64) (d j b : Nat) :
    tableRam ram d j b d j = tableEntry (ram d j) b := by
  rw [tableRam, Function.update_self, Function.update_self]

theorem tableRam_new (ram : Nat → Nat → U64) {d j b : Nat} (hb : b ≠ d) (l : Nat) :
    tableRam ram d j b b l = 0#64 := by
  rw [tableRam, Function.update_of_ne hb, Function.update_self]

theorem tableRam_other (ram : Nat → Nat → U64) {d j b f l : Nat} (hb : f ≠ b)
    (hd : ¬(f = d ∧ l = j)) : tableRam ram d j b f l = ram f l := by
  rw [tableRam]
  by_cases hfd : f = d
  · subst hfd
    rw [Function.update_self, Function.update_of_ne fun hl ↦ hd ⟨rfl, hl⟩]
  · rw [Function.update_of_ne hfd, Function.update_of_ne hb]

/-- `create_page_table`, once a fresh page has been found: `d` is the block the pointer to the
directory is mapped to. -/
theorem createPageTable_of_fresh {phys : PhysOf} {k k' : KernelMem} {m : PageMap} {i d : Nat}
    (j : Nat) (hdir : k.heap.translate (m.pageDirs i) = some d)
    (howned : d ∉ k.blocks.freeBlocks) {virt : U64} {b : Nat}
    (hcall : mapFreshPage phys k = .ok (virt, blockAddr b, k')) (hfresh : FreshPage k virt b k') :
    createPageTable phys i j m k = .ok (m.setPageTable i j virt, [blockAddr b],
      { k' with ram := tableRam k.ram d j b }) := by
  have hne : d ≠ b := fun heq ↦ howned (heq ▸ hfresh.least.1)
  let k₁ : KernelMem := { k' with ram := Function.update k'.ram b fun _ ↦ 0#64 }
  have hdir₁ : k₁.heap.translate (m.pageDirs i) = some d := hfresh.translate_mono _ _ hdir
  have hload := load_eq hdir₁ j
  have hstore := store_eq hdir₁ j (setPageFrame (k₁.ram d j) (blockAddr b) ||| userFlags)
  simp only [createPageTable, allocatePageTable, hcall, Except.bind, bind,
    fillPage_eq hfresh.translate_eq, pure, Except.pure]
  simp only [k₁] at hload hstore
  simp only [hload, hstore]
  simp only [hfresh.ram_eq, Function.update_of_ne hne]
  rfl

/-- `create_page_table`, for a directory that is mapped at its pointer. -/
theorem createPageTable_spec (phys : PhysOf) {k : KernelMem} (hk : KernelInv k) {m : PageMap}
    {i : Nat} (j : Nat) (hdir : k.heap.translate (m.pageDirs i) = some (m.dirFrame i))
    (howned : m.dirFrame i ∉ k.blocks.freeBlocks) :
    (∃ virt b k', FreshPage k virt b k' ∧ createPageTable phys i j m k =
        .ok (m.setPageTable i j virt, [blockAddr b],
          { k' with ram := tableRam k.ram (m.dirFrame i) j b })) ∨
      ∃ e, createPageTable phys i j m k = .error e ∧ e.Exhausted := by
  rcases mapFreshPage_spec phys hk with ⟨virt, b, k', hcall, hfresh⟩ | ⟨e, hcall, he⟩
  · exact .inl ⟨virt, b, k', hfresh, createPageTable_of_fresh j hdir howned hcall hfresh⟩
  · refine .inr ⟨e, ?_, he⟩
    simp only [createPageTable, allocatePageTable, hcall, Except.bind, bind]

theorem pageTables_setPageTable (m : PageMap) (i j : Nat) (virt : U64) (i' j' : Nat) :
    (m.setPageTable i j virt).pageTables i' j' =
      if i' = i ∧ j' = j then virt else m.pageTables i' j' := by
  simp only [setPageTable, Function.update_apply]
  by_cases hi : i' = i
  · subst hi
    simp only [if_true, true_and, Function.update_apply]
  · simp only [hi, if_false, false_and]

/-- The word of a user page, by its number, if its table is there. -/
def word (k : KernelMem) (m : PageMap) (p : Nat) : Option U64 :=
  if m.pageTables (p / 2 ^ 18) (p / 512 % 512) = 0#64 then none
  else some (k.ram (tableFrame k m (p / 2 ^ 18) (p / 512 % 512)) (p % 512))

/-- The word is the same, or a zero in a new table. -/
def SameWord (w w' : Option U64) : Prop := w' = w ∨ w = none ∧ w' = some 0#64

theorem SameWord.trans {w w' w'' : Option U64} (h : SameWord w w') (h' : SameWord w' w'') :
    SameWord w w'' := by
  rcases h with rfl | ⟨rfl, rfl⟩
  · exact h'
  · rcases h' with rfl | ⟨h', -⟩
    · exact .inr ⟨rfl, rfl⟩
    · cases h'

/-- The tables a map has. -/
@[irreducible] def tables (m : PageMap) : Finset (Nat × Nat) :=
  (Finset.range 512 ×ˢ Finset.range 512).filter fun x ↦ m.pageTables x.1 x.2 ≠ 0#64

theorem mem_tables {m : PageMap} {x : Nat × Nat} :
    x ∈ m.tables ↔ (x.1 < 512 ∧ x.2 < 512) ∧ m.pageTables x.1 x.2 ≠ 0#64 := by
  unfold tables
  refine Finset.mem_filter.trans (and_congr_left fun _ ↦ Finset.mem_product.trans ?_)
  rw [Finset.mem_range, Finset.mem_range]

/-- What a step of `map_virtual_memory_4k` keeps: the invariant, the levels above the tables, and
every word but those in `changed`; and there are as many new tables as blocks were taken. -/
structure Step (k : KernelMem) (m : PageMap) (changed : Set Nat) (taken : List U64)
    (k' : KernelMem) (m' : PageMap) : Prop where
  inv : MapInv k' m'
  ext : Extends k k'
  pdpt_eq : m'.pdpt = m.pdpt
  pml4Phys_eq : m'.pml4Phys = m.pml4Phys
  pdptPhys_eq : m'.pdptPhys = m.pdptPhys
  pageDirsPhys_eq : m'.pageDirsPhys = m.pageDirsPhys
  pml4_ram : k'.ram m.pml4Frame = k.ram m.pml4Frame
  pdpt_ram : k'.ram m.pdptFrame = k.ram m.pdptFrame
  same : ∀ p < 2 ^ 27, p ∉ changed → SameWord (word k m p) (word k' m' p)
  card_tables : m'.tables.card ≤ m.tables.card + taken.length

theorem Step.refl {k : KernelMem} {m : PageMap} (hm : MapInv k m) : Step k m ∅ [] k m :=
  ⟨hm, hm.extends_refl, rfl, rfl, rfl, rfl, rfl, rfl, fun _ _ _ ↦ .inl rfl, Nat.le_add_right _ _⟩

theorem Step.trans {k k' k'' : KernelMem} {m m' m'' : PageMap} {c c' : Set Nat}
    {taken taken' : List U64} (h : Step k m c taken k' m') (h' : Step k' m' c' taken' k'' m'') :
    Step k m (c ∪ c') (taken ++ taken') k'' m'' := by
  have hpml4 : m'.pml4Frame = m.pml4Frame := by rw [pml4Frame, h.pml4Phys_eq, pml4Frame]
  have hpdpt : m'.pdptFrame = m.pdptFrame := by rw [pdptFrame, h.pdptPhys_eq, pdptFrame]
  have hram := h'.pml4_ram
  have hram' := h'.pdpt_ram
  have hcount := h.card_tables
  have hcount' := h'.card_tables
  rw [hpml4] at hram
  rw [hpdpt] at hram'
  refine ⟨h'.inv, h.ext.trans h'.ext, h'.pdpt_eq.trans h.pdpt_eq,
    h'.pml4Phys_eq.trans h.pml4Phys_eq, h'.pdptPhys_eq.trans h.pdptPhys_eq,
    h'.pageDirsPhys_eq.trans h.pageDirsPhys_eq, hram.trans h.pml4_ram, hram'.trans h.pdpt_ram,
    fun p hp hnot ↦ ?_, by rw [List.length_append]; omega⟩
  exact (h.same p hp fun hc ↦ hnot (.inl hc)).trans (h'.same p hp fun hc ↦ hnot (.inr hc))

theorem card_tables_setPageTable (m : PageMap) (i j : Nat) (virt : U64) :
    (m.setPageTable i j virt).tables.card ≤ m.tables.card + 1 := by
  have hsub : (m.setPageTable i j virt).tables ⊆ insert (i, j) m.tables := by
    intro x hx
    rw [mem_tables, pageTables_setPageTable] at hx
    rw [Finset.mem_insert, mem_tables]
    by_cases hij : x.1 = i ∧ x.2 = j
    · exact .inl (Prod.ext hij.1 hij.2)
    · rw [if_neg hij] at hx
      exact .inr hx
  exact (Finset.card_le_card hsub).trans (Finset.card_insert_le _ _)

/-- **A new table**: the map stays well formed, and the table's pages get zero words. -/
theorem MapInv.step_of_table {k k' : KernelMem} {m : PageMap} (hm : MapInv k m) {i j : Nat}
    (hi : i < 512) (hj : j < 512) (hnull : m.pageTables i j = 0#64) {virt : U64} {b : Nat}
    (hfresh : FreshPage k virt b k') :
    Step k m ∅ [blockAddr b] { k' with ram := tableRam k.ram (m.dirFrame i) j b }
      (m.setPageTable i j virt) := by
  let k₁ : KernelMem := { k' with ram := tableRam k.ram (m.dirFrame i) j b }
  let m₁ := m.setPageTable i j virt
  have hb := hfresh.least.1
  have hne : ∀ {x : Node}, m.Live x → nodeFrame k m x ≠ b := fun hx ↦ hm.ne_of_free hb hx
  have hdir : ∀ d < 512, m.dirFrame d ≠ b := fun d hd ↦ hne (x := .dir d) hd
  -- the entries of the directories other than the new one stay
  have hentry : ∀ i' < 512, ∀ j', ¬(i' = i ∧ j' = j) →
      k₁.ram (m.dirFrame i') j' = k.ram (m.dirFrame i') j' := by
    intro i' hi' j' hij
    refine tableRam_other k.ram (hdir i' hi') fun ⟨heq, hj'⟩ ↦ hij ⟨?_, hj'⟩
    exact Node.dir.inj (hm.distinct (.dir i') (.dir i) hi' hi heq)
  have hnew : k₁.ram (m.dirFrame i) j = tableEntry (k.ram (m.dirFrame i) j) b :=
    tableRam_entry k.ram _ _ _
  have habsent : present (k.ram (m.dirFrame i) j) = false := by
    rw [← Bool.not_eq_true, hm.present_iff i hi j hj, hnull]
    simp
  have hb40 : b < 2 ^ 40 := (freeBlocks_lt hb).trans (by decide)
  have hframe_new : tableFrame k₁ m i j = b := by
    rw [tableFrame, hnew, frameOf_tableEntry _ hb40]
  have hframe : ∀ i' < 512, ∀ j', ¬(i' = i ∧ j' = j) → tableFrame k₁ m i' j' =
      tableFrame k m i' j' := fun i' hi' j' hij ↦ by
        rw [tableFrame, hentry i' hi' j' hij, tableFrame]
  have hptr : ∀ i' j', m₁.pageTables i' j' = if i' = i ∧ j' = j then virt else m.pageTables i' j' :=
    pageTables_setPageTable m i j virt
  have hnode : ∀ x, m₁.Live x → (x = .table i j ∧ nodeFrame k₁ m₁ x = b) ∨
      (m.Live x ∧ nodeFrame k₁ m₁ x = nodeFrame k m x) := by
    intro x hx
    cases x with
    | pml4 => exact .inr ⟨trivial, rfl⟩
    | pdpt => exact .inr ⟨trivial, rfl⟩
    | dir d => exact .inr ⟨hx, rfl⟩
    | table i' j' =>
      obtain ⟨hi', hj', ht⟩ := hx
      by_cases hij : i' = i ∧ j' = j
      · obtain ⟨rfl, rfl⟩ := hij
        exact .inl ⟨rfl, hframe_new⟩
      · rw [hptr, if_neg hij] at ht
        exact .inr ⟨⟨hi', hj', ht⟩, hframe i' hi' j' hij⟩
  have hext : Extends k k₁ :=
    ⟨⟨hfresh.hint, hfresh.heapInv⟩, hfresh.freeBlocks_subset, hfresh.translate_mono⟩
  refine ⟨⟨hext.toKernelInv, ⟨fun d hd ↦ hext.translate_mono _ _ (hm.dir_ptr d hd),
    fun i' hi' j' hj' ht ↦ ?_, fun i' hi' j' hj' ↦ ?_, fun i' hi' j' hj' ht ↦ ?_,
    fun x y hx hy heq ↦ ?_⟩, fun x hx hfree ↦ ?_, fun i' hi' j' hj' hp ↦ ?_⟩, hext, rfl, rfl, rfl,
    rfl, ?_, ?_, fun p hp _ ↦ ?_, card_tables_setPageTable m i j virt⟩
  · show k₁.heap.translate (m₁.pageTables i' j') = some (tableFrame k₁ m i' j')
    by_cases hij : i' = i ∧ j' = j
    · rw [hptr, if_pos hij, hij.1, hij.2, hframe_new]
      exact hfresh.translate_eq
    · rw [hptr, if_neg hij] at ht
      rw [hptr, if_neg hij, hframe i' hi' j' hij]
      exact hext.translate_mono _ _ (hm.table_ptr i' hi' j' hj' ht)
  · show present (k₁.ram (m.dirFrame i') j') = true ↔ m₁.pageTables i' j' ≠ 0#64
    by_cases hij : i' = i ∧ j' = j
    · rw [hptr, if_pos hij, hij.1, hij.2, hnew]
      exact iff_of_true (present_tableEntry _ b) hfresh.virt_ne_zero
    · rw [hptr, if_neg hij, hentry i' hi' j' hij]
      exact hm.present_iff i' hi' j' hj'
  · show large (k₁.ram (m.dirFrame i') j') = false
    by_cases hij : i' = i ∧ j' = j
    · rw [hij.1, hij.2, hnew, large_tableEntry]
      exact hm.stale i hi j hj habsent
    · rw [hptr, if_neg hij] at ht
      rw [hentry i' hi' j' hij]
      exact hm.table_not_large i' hi' j' hj' ht
  · rcases hnode x hx with ⟨rfl, hxb⟩ | ⟨hlx, hxf⟩ <;> rcases hnode y hy with ⟨rfl, hyb⟩ |
      ⟨hly, hyf⟩
    · rfl
    · exact absurd (hyf.symm.trans (heq.symm.trans hxb)) (hne hly)
    · exact absurd (hxf.symm.trans (heq.trans hyb)) (hne hlx)
    · exact hm.distinct x y hlx hly (hxf.symm.trans (heq.trans hyf))
  · have hfree' : nodeFrame k₁ m₁ x ∈ k.blocks.freeBlocks \ {b} := hfresh.freeBlocks_eq ▸ hfree
    rcases hnode x hx with ⟨-, hxb⟩ | ⟨hlx, hxf⟩
    · exact hfree'.2 hxb
    · rw [hxf] at hfree'
      exact hm.owned x hlx hfree'.1
  · have hp' : present (k₁.ram (m.dirFrame i') j') = false := hp
    show large (k₁.ram (m.dirFrame i') j') = false
    by_cases hij : i' = i ∧ j' = j
    · rw [hij.1, hij.2, hnew, present_tableEntry] at hp'
      cases hp'
    · rw [hentry i' hi' j' hij] at hp' ⊢
      exact hm.stale i' hi' j' hj' hp'
  · funext l
    refine tableRam_other k.ram (hne (x := .pml4) trivial) fun ⟨heq, _⟩ ↦ ?_
    cases hm.distinct .pml4 (.dir i) trivial hi heq
  · funext l
    refine tableRam_other k.ram (hne (x := .pdpt) trivial) fun ⟨heq, _⟩ ↦ ?_
    cases hm.distinct .pdpt (.dir i) trivial hi heq
  · have hi' : p / 2 ^ 18 < 512 := by omega
    have hj' : p / 512 % 512 < 512 := Nat.mod_lt _ (by decide)
    by_cases hij : p / 2 ^ 18 = i ∧ p / 512 % 512 = j
    · refine .inr ⟨by rw [word, hij.1, hij.2, if_pos hnull], ?_⟩
      show (if m₁.pageTables (p / 2 ^ 18) (p / 512 % 512) = 0#64 then none
        else some (k₁.ram (tableFrame k₁ m (p / 2 ^ 18) (p / 512 % 512)) (p % 512))) = _
      rw [hptr, if_pos hij, if_neg hfresh.virt_ne_zero, hij.1, hij.2, hframe_new]
      exact congrArg some (tableRam_new k.ram (hdir i hi).symm _)
    · refine .inl ?_
      show (if m₁.pageTables (p / 2 ^ 18) (p / 512 % 512) = 0#64 then none
        else some (k₁.ram (tableFrame k₁ m (p / 2 ^ 18) (p / 512 % 512)) (p % 512))) = _
      rw [hptr, if_neg hij, hframe _ hi' _ hij, word]
      by_cases ht : m.pageTables (p / 2 ^ 18) (p / 512 % 512) = 0#64
      · rw [if_pos ht, if_pos ht]
      · have hlive : m.Live (.table (p / 2 ^ 18) (p / 512 % 512)) := ⟨hi', hj', ht⟩
        rw [if_neg ht, if_neg ht]
        refine congrArg some (tableRam_other k.ram (hne hlive) fun ⟨heq, _⟩ ↦ ?_)
        cases hm.distinct _ (.dir i) hlive hi heq

/-! ## Mapping pages -/

theorem MapInv.ensurePageTable (phys : PhysOf) {k : KernelMem} {m : PageMap} (hm : MapInv k m)
    {i j : Nat} (hi : i < 512) (hj : j < 512) :
    (∃ m' taken k', PageMap.ensurePageTable phys i j m k = .ok (m', taken, k') ∧
        Step k m ∅ taken k' m' ∧ m'.pageTables i j ≠ 0#64) ∨
      ∃ e, PageMap.ensurePageTable phys i j m k = .error e ∧ e.Exhausted := by
  have hcall : PageMap.ensurePageTable phys i j m k =
      if present (k.ram (m.dirFrame i) j) then .ok (m, [], k)
      else PageMap.createPageTable phys i j m k := by
    simp only [PageMap.ensurePageTable, load_eq (hm.dir_ptr i hi), Except.bind, bind, pure,
      Except.pure]
  rw [hcall]
  split
  · next hp =>
    exact .inl ⟨m, [], k, rfl, .refl hm, (hm.present_iff i hi j hj).mp hp⟩
  · next hp =>
    have hnull : m.pageTables i j = 0#64 := by
      by_contra ht
      exact hp ((hm.present_iff i hi j hj).mpr ht)
    rcases createPageTable_spec phys hm.toKernelInv j (hm.dir_ptr i hi)
      (hm.owned (.dir i) hi) with ⟨virt, b, k', hfresh, hok⟩ | herr
    · refine .inl ⟨_, _, _, hok, hm.step_of_table hi hj hnull hfresh, ?_⟩
      rw [pageTables_setPageTable, if_pos ⟨rfl, rfl⟩]
      exact hfresh.virt_ne_zero
    · exact .inr herr

/-- The number of the user page an address selects. -/
def pageNumber (virt : U64) : Nat := virt.toNat / 4096 % 2 ^ 27

theorem pageNumber_eq (virt : U64) :
    pageNumber virt < 2 ^ 27 ∧ pageNumber virt / 2 ^ 18 = pdptIndex virt ∧
      pageNumber virt / 512 % 512 = pdeIndex virt ∧ pageNumber virt % 512 = ptIndex virt := by
  rw [pageNumber, pdptIndex_eq, pdeIndex_eq, ptIndex_eq]
  omega

/-- A store to a word of a table changes the word of that page and nothing else. -/
theorem MapInv.step_of_store {k : KernelMem} {m : PageMap} (hm : MapInv k m) {p : Nat}
    (hp : p < 2 ^ 27) (ht : m.pageTables (p / 2 ^ 18) (p / 512 % 512) ≠ 0#64) (e : U64) :
    ∃ k', k.store (m.pageTables (p / 2 ^ 18) (p / 512 % 512)) (p % 512) e = .ok k' ∧
      Step k m {p} [] k' m ∧ word k' m p = some e := by
  have hi : p / 2 ^ 18 < 512 := by omega
  have hj : p / 512 % 512 < 512 := Nat.mod_lt _ (by decide)
  generalize hf : tableFrame k m (p / 2 ^ 18) (p / 512 % 512) = f
  have hlive : m.Live (.table (p / 2 ^ 18) (p / 512 % 512)) := ⟨hi, hj, ht⟩
  have hother : ∀ x, m.Live x → x ≠ .table (p / 2 ^ 18) (p / 512 % 512) →
      nodeFrame k m x ≠ f := by
    intro x hx hne heq
    exact hne (hm.distinct x _ hx hlive (heq.trans hf.symm))
  have hptr := hm.table_ptr _ hi _ hj ht
  rw [hf] at hptr
  refine ⟨_, store_eq hptr (p % 512) e, ?_, ?_⟩
  · let ram := Function.update k.ram f (Function.update (k.ram f) (p % 512) e)
    have hdir : ∀ d < 512, ∀ j, ram (m.dirFrame d) j = k.ram (m.dirFrame d) j := by
      intro d hd j
      exact congrFun (Function.update_of_ne (hother (.dir d) hd (by simp)) _ _) j
    have hframe : ∀ d < 512, ∀ j, tableFrame { k with ram := ram } m d j = tableFrame k m d j :=
      fun d hd j ↦ congrArg frameOf (hdir d hd j)
    have hext := hm.extends_ram ram
    refine ⟨hm.of_extends hext fun d hd j _ ↦ hdir d hd j, hext, rfl, rfl, rfl, rfl,
      Function.update_of_ne (hother .pml4 trivial (by simp)) _ _,
      Function.update_of_ne (hother .pdpt trivial (by simp)) _ _, fun q hq hne ↦ .inl ?_,
      Nat.le_add_right _ _⟩
    have hq' : q / 2 ^ 18 < 512 := by omega
    have hne' : q ≠ p := hne
    show word { k with ram := ram } m q = word k m q
    rw [word, word, hframe _ hq']
    by_cases hq0 : m.pageTables (q / 2 ^ 18) (q / 512 % 512) = 0#64
    · rw [if_pos hq0, if_pos hq0]
    · rw [if_neg hq0, if_neg hq0]
      refine congrArg some ?_
      show ram _ _ = _
      by_cases hsame : tableFrame k m (q / 2 ^ 18) (q / 512 % 512) = f
      · have hnode := hm.distinct (.table (q / 2 ^ 18) (q / 512 % 512)) _
          ⟨hq', Nat.mod_lt _ (by decide), hq0⟩ hlive (hsame.trans hf.symm)
        obtain ⟨h1, h2⟩ := Node.table.inj hnode
        rw [hsame]
        simp only [ram, Function.update_self]
        rw [Function.update_of_ne (by omega)]
      · exact congrFun (Function.update_of_ne hsame _ _) _
  · have hdir : m.dirFrame (p / 2 ^ 18) ≠ f := hother (.dir _) hi (by simp)
    rw [word, if_neg ht, tableFrame]
    simp only [Function.update_of_ne hdir]
    rw [show frameOf (k.ram (m.dirFrame (p / 2 ^ 18)) (p / 512 % 512)) = f from hf,
      Function.update_self, Function.update_self]

/-- **One page**: its word is the new entry, and every other word stays. -/
theorem MapInv.mapPage (phys : PhysOf) {k : KernelMem} {m : PageMap} (hm : MapInv k m)
    (flags frame : U64) {virt : U64} (hvirt : pml4Index virt = 0) :
    (∃ m' taken k', PageMap.mapPage phys flags frame virt m k = .ok (m', taken, k') ∧
        Step k m {pageNumber virt} taken k' m' ∧
        word k' m' (pageNumber virt) = some (setPageFrame flags frame)) ∨
      ∃ e, PageMap.mapPage phys flags frame virt m k = .error e ∧ e.Exhausted := by
  obtain ⟨hp, hi, hj, hl⟩ := pageNumber_eq virt
  have hi' : pdptIndex virt < 512 := by omega
  have hj' : pdeIndex virt < 512 := pdeIndex_lt virt
  have hptr : m.pageDirs (pdptIndex virt) ≠ 0#64 := by
    intro h0
    have htr := hm.dir_ptr _ hi'
    rw [h0, translate_eq_some] at htr
    exact absurd htr.1 (by decide)
  rw [PageMap.mapPage, if_neg (by omega), if_neg hptr]
  rcases hm.ensurePageTable phys hi' hj' with ⟨m', taken, k', hcall, hstep, ht⟩ | ⟨e, hcall, he⟩
  · rw [← hi, ← hj] at ht
    obtain ⟨k'', hstore, hstep', hword⟩ := hstep.inv.step_of_store hp ht (setPageFrame flags frame)
    rw [hi, hj, hl] at hstore
    have htrans := hstep.trans hstep'
    rw [Set.empty_union, List.append_nil] at htrans
    refine .inl ⟨m', taken, k'', ?_, htrans, hword⟩
    simp only [hcall, hstore, Except.bind, bind, pure, Except.pure]
  · refine .inr ⟨e, ?_, he⟩
    simp only [hcall, Except.bind, bind]

theorem SameWord.of_some {e : U64} {w : Option U64} (h : SameWord (some e) w) : w = some e := by
  rcases h with rfl | ⟨h, -⟩
  · rfl
  · cases h

/-- **Any number of pages**, one frame after the other. -/
theorem MapInv.mapVirtualMemory4k (phys : PhysOf) (flags : U64) {n : Nat} :
    ∀ (frame virt : U64) {k : KernelMem} {m : PageMap}, MapInv k m →
      virt.toNat + 4096 * n ≤ 2 ^ 39 →
      (∃ m' taken k', PageMap.mapVirtualMemory4k phys flags n frame virt m k =
          .ok (m', taken, k') ∧
        Step k m {p | virt.toNat / 4096 ≤ p ∧ p < virt.toNat / 4096 + n} taken k' m' ∧
        ∀ t < n, word k' m' (virt.toNat / 4096 + t) =
          some (setPageFrame flags (pageAt frame t))) ∨
      ∃ e, PageMap.mapVirtualMemory4k phys flags n frame virt m k = .error e ∧ e.Exhausted := by
  induction n with
  | zero =>
    intro frame virt k m hm _
    have hnone : {p | virt.toNat / 4096 ≤ p ∧ p < virt.toNat / 4096 + 0} = ∅ := by
      ext p
      simp only [Set.mem_ofPred_eq, Set.mem_empty_iff_false, iff_false]
      omega
    exact .inl ⟨m, [], k, rfl, hnone ▸ .refl hm, fun t ht ↦ by omega⟩
  | succ n ih =>
    intro frame virt k m hm hvirt
    have hnext : (virt + 0x1000#64).toNat = virt.toNat + 4096 := by
      rw [BitVec.toNat_add, BitVec.toNat_ofNat]
      omega
    have hnum : pageNumber virt = virt.toNat / 4096 := Nat.mod_eq_of_lt (by omega)
    have hnum' : (virt + 0x1000#64).toNat / 4096 = virt.toNat / 4096 + 1 := by
      rw [hnext]
      omega
    have hpml4 : pml4Index virt = 0 := by
      rw [pml4Index_eq]
      omega
    rcases hm.mapPage phys flags frame hpml4 with
      ⟨m₁, taken₁, k₁, hcall₁, hstep₁, hword₁⟩ | ⟨e, hcall, he⟩
    · rcases ih (frame + 0x1000#64) (virt + 0x1000#64) hstep₁.inv (by omega) with
        ⟨m₂, taken₂, k₂, hcall₂, hstep₂, hword₂⟩ | ⟨e, hcall₂, he⟩
      · rw [hnum'] at hstep₂ hword₂
        rw [hnum] at hstep₁ hword₁
        have hchanged : {p | virt.toNat / 4096 ≤ p ∧ p < virt.toNat / 4096 + (n + 1)} =
            {virt.toNat / 4096} ∪
              {p | virt.toNat / 4096 + 1 ≤ p ∧ p < virt.toNat / 4096 + 1 + n} := by
          ext p
          simp only [Set.mem_union, Set.mem_singleton_iff, Set.mem_ofPred_eq]
          omega
        refine .inl ⟨m₂, taken₁ ++ taken₂, k₂, ?_, hchanged ▸ hstep₁.trans hstep₂, ?_⟩
        · simp only [PageMap.mapVirtualMemory4k, hcall₁, hcall₂, Except.bind, bind, pure,
            Except.pure]
        · intro t ht
          cases t with
          | zero =>
            have hsame := hstep₂.same (virt.toNat / 4096) (by omega)
              fun h ↦ absurd h.1 (Nat.not_succ_le_self _)
            rw [hword₁] at hsame
            rw [Nat.add_zero, pageAt_zero]
            exact hsame.of_some
          | succ t =>
            rw [show virt.toNat / 4096 + (t + 1) = virt.toNat / 4096 + 1 + t by omega, pageAt_succ]
            exact hword₂ t (by omega)
      · refine .inr ⟨e, ?_, he⟩
        simp only [PageMap.mapVirtualMemory4k, hcall₁, hcall₂, Except.bind, bind]
    · refine .inr ⟨e, ?_, he⟩
      simp only [PageMap.mapVirtualMemory4k, hcall, Except.bind, bind]

/-! ## The walk -/

/-- A well-formed map is walked through its tables. -/
theorem WellFormed.walk_eq {k : KernelMem} {m : PageMap} (hw : WellFormed k m) {i j : Nat}
    (hi : i < 512) (hj : j < 512) (l : Nat) :
    walk entryFormat k.ram m.pml4Frame [0, i, j, l] =
      if m.pageTables i j = 0#64 then .absent else .last (k.ram (tableFrame k m i j) l) := by
  obtain ⟨hp4, hf4⟩ := hw.pml4_entry
  obtain ⟨hp3, -, -, hl3, hf3⟩ := hw.pdpt_entry i hi
  have hlarge : entryFormat.large 2 (k.ram m.pdptFrame i) = false := hl3
  rw [walk_table hp4 rfl, show entryFormat.frame (k.ram m.pml4Frame 0) = m.pdptFrame from hf4,
    walk_table hp3 hlarge, show entryFormat.frame (k.ram m.pdptFrame i) = m.dirFrame i from hf3]
  split
  · next ht =>
    refine walk_absent ?_
    show present (k.ram (m.dirFrame i) j) = false
    rw [← Bool.not_eq_true, hw.present_iff i hi j hj]
    simpa using ht
  · next ht =>
    have hlarge' : entryFormat.large 1 (k.ram (m.dirFrame i) j) = false :=
      hw.table_not_large i hi j hj ht
    rw [walk_table ((hw.present_iff i hi j hj).mpr ht) hlarge', walk_last]
    rfl

/-- What the hardware finds for a user page, in terms of its word. -/
def wordEnd : Option U64 → End U64
  | none => .absent
  | some e => .last e

theorem WellFormed.walk_word {k : KernelMem} {m : PageMap} (hw : WellFormed k m) {p : Nat}
    (hp : p < 2 ^ 27) :
    walk entryFormat k.ram m.pml4Frame [0, p / 2 ^ 18, p / 512 % 512, p % 512] =
      wordEnd (word k m p) := by
  rw [hw.walk_eq (by omega) (Nat.mod_lt _ (by decide)), word]
  split <;> rfl

theorem SameWord.page_eq {w w' : Option U64} (h : SameWord w w') :
    (wordEnd w').page entryFormat = (wordEnd w).page entryFormat := by
  rcases h with rfl | ⟨rfl, rfl⟩
  · rfl
  · rfl

theorem Step.wellFormed {k k' : KernelMem} {m m' : PageMap} {changed : Set Nat}
    {taken : List U64} (h : Step k m changed taken k' m') (hw : WellFormed k m) :
    WellFormed k' m' := by
  have hpml4 : m'.pml4Frame = m.pml4Frame := by rw [pml4Frame, h.pml4Phys_eq, pml4Frame]
  have hpdpt : m'.pdptFrame = m.pdptFrame := by rw [pdptFrame, h.pdptPhys_eq, pdptFrame]
  have hdir : ∀ i, m'.dirFrame i = m.dirFrame i := fun i ↦ by
    rw [dirFrame, h.pageDirsPhys_eq, dirFrame]
  refine ⟨h.inv.toShadows, ?_, fun i hi ↦ ?_⟩
  · rw [hpml4, hpdpt, h.pml4_ram]
    exact hw.pml4_entry
  · rw [hpdpt, hdir, h.pdpt_ram]
    exact hw.pdpt_entry i hi

/-- The indices of a user page, from its number. -/
theorem walkPath_eq {virt : U64} (hvirt : pml4Index virt = 0) :
    walkPath virt = [0, pageNumber virt / 2 ^ 18, pageNumber virt / 512 % 512,
      pageNumber virt % 512] := by
  obtain ⟨-, hi, hj, hl⟩ := pageNumber_eq virt
  rw [walkPath, hvirt, hi, hj, hl]

/-- Flags outside the frame bits are all an entry's other bits. -/
theorem and_not_pageFrame {flags : U64} (h : flags &&& pageFrame = 0#64) :
    flags &&& ~~~pageFrame = flags := by
  calc flags &&& ~~~pageFrame = (flags &&& ~~~pageFrame) ||| (flags &&& pageFrame) := by
        rw [h, BitVec.or_zero]
    _ = flags &&& (~~~pageFrame ||| pageFrame) := (BitVec.and_or_distrib_left).symm
    _ = flags := by
        rw [show ~~~pageFrame ||| pageFrame = BitVec.allOnes 64 by decide, BitVec.and_allOnes]

/-- The pages a call maps are numbered one after the other. -/
theorem pageNumber_pageAt {virt : U64} {n t : Nat} (hvirt : virt.toNat + 4096 * n ≤ 2 ^ 39)
    (ht : t < n) :
    pageNumber (pageAt virt t) = virt.toNat / 4096 + t ∧ pml4Index (pageAt virt t) = 0 := by
  rw [pageNumber, pml4Index_eq, toNat_pageAt]
  omega

/-- **What `map_virtual_memory_4k` does to the walk.**  On a well-formed map whose absent directory
entries have no page-size bit, a call that stays below 512 GiB returns, unless one of the allocators
runs dry.  Then the walk of each page of the call ends in an entry with the page's frame and the
given flags, the hardware finds for every other user page what it found before, and the map is
still well formed. -/
theorem map_virtual_memory_walk (phys : PhysOf) {k : KernelMem} {m : PageMap} (hk : KernelInv k)
    (hw : WellFormed k m) (howned : Owned k m) (hstale : StaleFree k m) {flags frame virt : U64}
    {amount : Nat} (hvirt : virt.toNat + 4096 * amount ≤ 2 ^ 39)
    (hframe : frame.toNat + 4096 * amount ≤ 2 ^ 52) (hflags : flags &&& pageFrame = 0#64) :
    (∃ e, PageMap.mapVirtualMemory4k phys flags amount frame virt m k = .error e ∧
        e.Exhausted) ∨
      ∃ m' taken k', PageMap.mapVirtualMemory4k phys flags amount frame virt m k =
          .ok (m', taken, k') ∧
        (∀ t < amount, ∃ e,
          walk entryFormat k'.ram m'.pml4Frame (walkPath (pageAt virt t)) = .last e ∧
          frameOf e = (frame.toNat + 4096 * t) / 4096 ∧ e &&& ~~~pageFrame = flags) ∧
        (∀ v, pml4Index v = 0 → (∀ t < amount, walkPath v ≠ walkPath (pageAt virt t)) →
          (walk entryFormat k'.ram m'.pml4Frame (walkPath v)).page entryFormat =
            (walk entryFormat k.ram m.pml4Frame (walkPath v)).page entryFormat) ∧
        KernelInv k' ∧ WellFormed k' m' ∧ Owned k' m' ∧ StaleFree k' m' := by
  have hm : MapInv k m := ⟨hk, hw.toShadows, howned, hstale⟩
  rcases hm.mapVirtualMemory4k phys flags frame virt hvirt with
    ⟨m', taken, k', hcall, hstep, hword⟩ | hdry
  · have hw' := hstep.wellFormed hw
    refine .inr ⟨m', taken, k', hcall, fun t ht ↦ ?_, fun v hv hother ↦ ?_,
      hstep.inv.toKernelInv, hw', hstep.inv.owned, hstep.inv.stale⟩
    · obtain ⟨hnum, hpml4⟩ := pageNumber_pageAt hvirt ht
      refine ⟨setPageFrame flags (pageAt frame t), ?_, ?_, ?_⟩
      · rw [walkPath_eq hpml4, hw'.walk_word (pageNumber_eq _).1, hnum, hword t ht]
        rfl
      · rw [frameOf_setPageFrame, frameOf_eq, toNat_pageAt]
        omega
      · rw [setPageFrame_and_not_pageFrame, and_not_pageFrame hflags]
    · have hp := (pageNumber_eq v).1
      have hout : pageNumber v ∉
          {p | virt.toNat / 4096 ≤ p ∧ p < virt.toNat / 4096 + amount} := by
        rintro ⟨h1, h2⟩
        obtain ⟨t, heq⟩ := Nat.exists_eq_add_of_le h1
        have ht : t < amount := by omega
        obtain ⟨hnum, hpml4⟩ := pageNumber_pageAt hvirt ht
        exact hother t ht (by rw [walkPath_eq hv, walkPath_eq hpml4, hnum, heq])
      rw [walkPath_eq hv, hw'.walk_word hp, hw.walk_word hp]
      exact (hstep.same _ hp hout).page_eq
  · exact .inl hdry

/-! ## A page-size bit left over in a directory -/

/-- A map with no tables: directory `i` is in block `1000 + i`, mapped at heap page `i`. -/
def emptyMap : PageMap where
  pdpt := 0#64
  pageDirs := heapPage
  pageDirsPhys := fun i ↦ blockAddr (1000 + i)
  pageTables := fun _ _ ↦ 0#64
  pml4 := 0#64
  pdptPhys := blockAddr 2001
  pml4Phys := blockAddr 2000

/-- The blocks of that map.  Every directory entry is zero, but for the very first. -/
def emptyMapRam (first : U64) (f l : Nat) : U64 :=
  if f = 2000 then tableEntry 0#64 2001
  else if f = 2001 then tableEntry 0#64 (1000 + l)
  else if f = 1000 ∧ l = 0 then first
  else 0#64

/-- The heap that map lives in: one table, full. -/
def emptyMapHeap : KernelHeap where
  dir := fun d ↦ if d = 0 then kernelFlags else 0#64
  tables := fun d j ↦ if d = 0 then setPageFrame kernelFlags (blockAddr (1000 + j)) else 0#64

/-- And the memory of a machine with one more block. -/
def emptyMapMem (first : U64) : KernelMem :=
  ⟨boot [⟨0x20000, 0x1000⟩], emptyMapHeap, emptyMapRam first⟩

theorem emptyMap_kernelInv (first : U64) : KernelInv (emptyMapMem first) := by
  refine ⟨(refines_boot (by decide)).toHintInv, fun p hp ↦ ?_, fun d ↦ ?_⟩
  · show present (if p / 512 = 0 then _ else 0#64) = false
    have hp' : present (if p / 512 = 0 then kernelFlags else 0#64) = false := hp
    split
    · next h0 =>
      rw [if_pos h0] at hp'
      exact absurd hp' (by decide)
    · decide
  · show large (if d = 0 then kernelFlags else 0#64) = false
    split <;> decide

theorem emptyMap_dirFrame {i : Nat} (hi : i < 512) : emptyMap.dirFrame i = 1000 + i :=
  blockAddr_shiftRight (show 1000 + i < 2 ^ 52 by omega)

theorem emptyMap_pml4Frame : emptyMap.pml4Frame = 2000 := blockAddr_shiftRight (by decide)

theorem emptyMap_pdptFrame : emptyMap.pdptFrame = 2001 := blockAddr_shiftRight (by decide)

/-- The blocks of its tables. -/
theorem emptyMap_nodeFrame (first : U64) {x : Node} (hx : emptyMap.Live x) :
    (x = .pml4 ∧ nodeFrame (emptyMapMem first) emptyMap x = 2000) ∨
      (x = .pdpt ∧ nodeFrame (emptyMapMem first) emptyMap x = 2001) ∨
      ∃ i < 512, x = .dir i ∧ nodeFrame (emptyMapMem first) emptyMap x = 1000 + i := by
  cases x with
  | pml4 => exact .inl ⟨rfl, emptyMap_pml4Frame⟩
  | pdpt => exact .inr (.inl ⟨rfl, emptyMap_pdptFrame⟩)
  | dir i => exact .inr (.inr ⟨i, hx, rfl, emptyMap_dirFrame hx⟩)
  | table i j => exact absurd rfl hx.2.2

/-- An entry of a directory of the map. -/
theorem emptyMapRam_dir (first : U64) {i : Nat} (hi : i < 512) (j : Nat) :
    emptyMapRam first (emptyMap.dirFrame i) j = if i = 0 ∧ j = 0 then first else 0#64 := by
  rw [emptyMap_dirFrame hi, emptyMapRam, if_neg (by omega), if_neg (by omega)]
  simp only [Nat.add_eq_left]

theorem emptyMap_wellFormed {first : U64} (hfirst : present first = false) :
    WellFormed (emptyMapMem first) emptyMap := by
  have habsent : ∀ i < 512, ∀ j,
      present ((emptyMapMem first).ram (emptyMap.dirFrame i) j) = false := by
    intro i hi j
    show present (emptyMapRam first _ j) = false
    rw [emptyMapRam_dir first hi]
    split
    · exact hfirst
    · decide
  refine ⟨⟨fun i hi ↦ ?_, fun _ _ _ _ ht ↦ absurd rfl ht, fun i hi j _ ↦ ?_,
    fun _ _ _ _ ht ↦ absurd rfl ht, fun x y hx hy heq ↦ ?_⟩, ?_, fun i hi ↦ ?_⟩
  · have hp : i < heapPages := by
      rw [heapPages]
      omega
    have hentry : (emptyMapMem first).heap.entry i =
        setPageFrame kernelFlags (blockAddr (1000 + i)) := by
      show (if i / 512 = 0 then _ else 0#64) = _
      rw [if_pos (by omega), show i % 512 = i by omega]
    show (emptyMapMem first).heap.translate (heapPage i) = _
    rw [translate_eq_some, pdeIndex_heapPage hp, heapIndex_heapPage hp, hentry,
      present_setPageFrame, frameOf_setPageFrame, frameOf_blockAddr (by omega),
      emptyMap_dirFrame hi, show i / 512 = 0 by omega]
    exact ⟨pml4Index_heapPage hp, pdptIndex_heapPage hp, show present kernelFlags = true by decide,
      show large kernelFlags = false by decide, by decide, rfl⟩
  · rw [habsent i hi j]
    exact iff_of_false (by decide) fun h ↦ h rfl
  · rcases emptyMap_nodeFrame first hx with ⟨hx', hfx⟩ | ⟨hx', hfx⟩ | ⟨i, hi, hx', hfx⟩ <;>
      rcases emptyMap_nodeFrame first hy with ⟨hy', hfy⟩ | ⟨hy', hfy⟩ | ⟨i', hi', hy', hfy⟩
    · rw [hx', hy']
    · omega
    · omega
    · omega
    · rw [hx', hy']
    · omega
    · omega
    · omega
    · rw [hx', hy', show i = i' by omega]
  · rw [emptyMap_pml4Frame, emptyMap_pdptFrame]
    exact ⟨present_tableEntry _ _, frameOf_tableEntry _ (by decide)⟩
  · rw [emptyMap_pdptFrame, emptyMap_dirFrame hi]
    have hentry : (emptyMapMem first).ram 2001 i = tableEntry 0#64 (1000 + i) := rfl
    rw [hentry]
    have hbits : ∀ f : U64, userFlags &&& f = f → f &&& pageFrame = 0#64 →
        tableEntry 0#64 (1000 + i) &&& f = f := by
      intro f hf hpf
      rw [tableEntry, BitVec.and_or_distrib_right, hf, setPageFrame, BitVec.zero_and,
        BitVec.zero_or, BitVec.and_assoc, BitVec.and_comm pageFrame, hpf, BitVec.and_zero,
        BitVec.zero_or]
    refine ⟨present_tableEntry _ _, ?_, ?_, ?_, frameOf_tableEntry _ (by omega)⟩
    · rw [hbits _ (by decide) (by decide)]
      decide
    · rw [hbits _ (by decide) (by decide)]
      decide
    · rw [large_tableEntry]
      decide

theorem emptyMap_owned (first : U64) : Owned (emptyMapMem first) emptyMap := by
  intro x hx hfree
  have h32 : nodeFrame (emptyMapMem first) emptyMap x ∈ ({32} : Set Nat) :=
    freeBlocks_oneBlock ▸ hfree
  have h32' : nodeFrame (emptyMapMem first) emptyMap x = 32 := h32
  rcases emptyMap_nodeFrame first hx with ⟨-, hf⟩ | ⟨-, hf⟩ | ⟨i, -, -, hf⟩ <;> omega

/-- The machine has the one page that a table takes. -/
theorem emptyMap_supply (first : U64) : Supply (emptyMapMem first) 1 := by
  refine ⟨emptyMap_kernelInv first, ?_, ?_⟩
  · show 1 ≤ (boot [⟨0x20000, 0x1000⟩]).freeBlocks.ncard
    rw [freeBlocks_oneBlock, Set.ncard_singleton]
  · refine Nat.one_le_iff_ne_zero.mpr fun h0 ↦ ?_
    rw [Set.ncard_eq_zero (freePages_finite _)] at h0
    have h512 : 512 ∈ (emptyMapMem first).heap.freePages :=
      ⟨by decide, show present 0#64 = false by decide⟩
    rw [h0] at h512
    exact h512

theorem emptyMap_staleFree : StaleFree (emptyMapMem 0#64) emptyMap := by
  intro i hi j _ _
  show large (emptyMapRam 0#64 _ j) = false
  rw [emptyMapRam_dir 0#64 hi, ite_self]
  decide

theorem map_virtual_memory_walk_first_page :
    WellFormed (emptyMapMem 0#64) emptyMap ∧
      ((∃ e, PageMap.mapVirtualMemory4k (fun _ ↦ 0#64) userFlags 1 0#64 0#64 emptyMap
          (emptyMapMem 0#64) = .error e ∧ e.Exhausted) ∨
        ∃ m' taken k', PageMap.mapVirtualMemory4k (fun _ ↦ 0#64) userFlags 1 0#64 0#64 emptyMap
          (emptyMapMem 0#64) = .ok (m', taken, k') ∧ WellFormed k' m') := by
  have hw := emptyMap_wellFormed (show present 0#64 = false by decide)
  refine ⟨hw, (map_virtual_memory_walk (fun _ ↦ 0#64) (emptyMap_kernelInv 0#64) hw
    (emptyMap_owned 0#64) emptyMap_staleFree (by decide) (by decide) (by decide)).imp_right ?_⟩
  rintro ⟨m', taken, k', hcall, -, -, -, hw', -⟩
  exact ⟨m', taken, k', hcall, hw'⟩

/-- **A left over page-size bit survives.**  The map is well formed, but for that bit in the
absent entry 0 of directory 0; mapping the first user page then makes the hardware find a large
page there. -/
theorem stale_page_size_bit_walk :
    KernelInv (emptyMapMem pde2M) ∧ WellFormed (emptyMapMem pde2M) emptyMap ∧
      Owned (emptyMapMem pde2M) emptyMap ∧ ∃ m' taken k',
        PageMap.mapVirtualMemory4k (fun _ ↦ 0#64) userFlags 1 0#64 0#64 emptyMap
          (emptyMapMem pde2M) = .ok (m', taken, k') ∧
        walk entryFormat k'.ram m'.pml4Frame (walkPath (pageAt 0#64 0)) =
          .large 1 (tableEntry pde2M 32) := by
  have hw := emptyMap_wellFormed (show present pde2M = false by decide)
  have howned := emptyMap_owned pde2M
  refine ⟨emptyMap_kernelInv pde2M, hw, howned, ?_⟩
  obtain ⟨virt, b, k', hcall, hfresh, -⟩ := (emptyMap_supply pde2M).mapFreshPage fun _ ↦ 0#64
  obtain rfl : b = 32 := by
    have hb : b ∈ ({32} : Set Nat) := freeBlocks_oneBlock ▸ hfresh.least.1
    exact hb
  have h0 : (0 : Nat) < 512 := by decide
  have hframe : emptyMap.dirFrame 0 = 1000 := emptyMap_dirFrame h0
  have hdir := hw.dir_ptr 0 h0
  have htable := createPageTable_of_fresh 0 hdir (howned (.dir 0) h0) hcall hfresh
  have hfirst : emptyMapRam pde2M (emptyMap.dirFrame 0) 0 = pde2M := by
    rw [emptyMapRam_dir pde2M h0, if_pos ⟨rfl, rfl⟩]
  let k₁ : KernelMem :=
    { k' with ram := tableRam (emptyMapRam pde2M) (emptyMap.dirFrame 0) 0 32 }
  have hensure : PageMap.ensurePageTable (fun _ ↦ 0#64) 0 0 emptyMap (emptyMapMem pde2M) =
      .ok (emptyMap.setPageTable 0 0 virt, [blockAddr 32], k₁) := by
    simp only [PageMap.ensurePageTable, load_eq hdir, Except.bind, bind]
    rw [if_neg]
    · exact htable
    · show ¬present (emptyMapRam pde2M _ 0) = true
      rw [hfirst]
      decide
  have hptr : k₁.heap.translate ((emptyMap.setPageTable 0 0 virt).pageTables 0 0) = some 32 := by
    rw [pageTables_setPageTable, if_pos ⟨rfl, rfl⟩]
    exact hfresh.translate_eq
  let ram := Function.update k₁.ram 32
    (Function.update (k₁.ram 32) 0 (setPageFrame userFlags 0#64))
  have hstore : k₁.store ((emptyMap.setPageTable 0 0 virt).pageTables 0 0) 0
      (setPageFrame userFlags 0#64) = .ok { k₁ with ram := ram } := store_eq hptr _ _
  have hmap : PageMap.mapPage (fun _ ↦ 0#64) userFlags 0#64 0#64 emptyMap (emptyMapMem pde2M) =
      .ok (emptyMap.setPageTable 0 0 virt, [blockAddr 32], { k₁ with ram := ram }) := by
    have hidx : pdptIndex 0#64 = 0 ∧ pdeIndex 0#64 = 0 ∧ ptIndex 0#64 = 0 := by decide
    have hnull : emptyMap.pageDirs 0 ≠ 0#64 := by decide
    rw [PageMap.mapPage, if_neg (by decide), hidx.1, hidx.2.1, hidx.2.2, if_neg hnull]
    simp only [hensure, hstore, Except.bind, bind, pure, Except.pure]
  refine ⟨emptyMap.setPageTable 0 0 virt, [blockAddr 32] ++ [], { k₁ with ram := ram }, ?_, ?_⟩
  · simp only [PageMap.mapVirtualMemory4k, hmap, Except.bind, bind, pure, Except.pure]
  · -- neither the new table nor the directory's entry is on the way to the directory
    have hram : ∀ f l, f ≠ 32 → ¬(f = 1000 ∧ l = 0) → ram f l = emptyMapRam pde2M f l := by
      intro f l hf hfl
      rw [← hframe] at hfl
      exact (congrFun (Function.update_of_ne hf _ _) l).trans (tableRam_other _ hf hfl)
    have hentry : ram 1000 0 = tableEntry pde2M 32 := by
      have h32 : (1000 : Nat) ≠ 32 := by decide
      refine (congrFun (Function.update_of_ne h32 _ _) 0).trans ?_
      show tableRam _ (emptyMap.dirFrame 0) 0 32 1000 0 = _
      rw [hframe, tableRam_entry, ← hframe, hfirst]
    have hroot : ram 2000 0 = tableEntry 0#64 2001 := hram 2000 0 (by decide) (by decide)
    have hpdpt : ram 2001 0 = tableEntry 0#64 1000 := hram 2001 0 (by decide) (by decide)
    show walk entryFormat ram emptyMap.pml4Frame _ = _
    rw [emptyMap_pml4Frame, pageAt_zero, show walkPath 0#64 = [0, 0, 0, 0] by decide,
      walk_table (by rw [hroot]; decide) rfl, hroot,
      show entryFormat.frame (tableEntry 0#64 2001) = 2001 by decide,
      walk_table (by rw [hpdpt]; decide) (by rw [hpdpt]; decide), hpdpt,
      show entryFormat.frame (tableEntry 0#64 1000) = 1000 by decide,
      walk_large (by rw [hentry]; decide) (by rw [hentry]; decide), hentry]
    rfl

end PageMap
end Borrrdex
