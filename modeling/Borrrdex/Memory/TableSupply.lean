import Borrrdex.Memory.PageMapLife

/-!
# How many tables a mapping needs

Mapping a page of a user address space takes a fresh page if the table is not there yet, and
nothing otherwise.  So whether a range of pages can be mapped is a matter of counting: `newTables`
are the tables that are missing, and `Supply` is what the two allocators have left.
-/

set_option autoImplicit false

namespace Borrrdex

open KernelMem KernelHeap PhysAllocator

namespace KernelMem

theorem Supply.mono {k : KernelMem} {n n' : Nat} (h : Supply k n) (hle : n' ≤ n) : Supply k n' :=
  ⟨h.toKernelInv, hle.trans h.blocks, hle.trans h.pages⟩

/-- Stores change no supply. -/
theorem supply_ram_iff {k : KernelMem} (ram : Nat → Nat → U64) (n : Nat) :
    Supply { k with ram := ram } n ↔ Supply k n :=
  ⟨fun h ↦ ⟨⟨h.hint, h.heapInv⟩, h.blocks, h.pages⟩, fun h ↦ h.of_ram ram⟩

end KernelMem

namespace PageMap

/-- The tables that have to be created to map the `n` user pages from page `p` on. -/
def newTables (m : PageMap) (p n : Nat) : Set Nat :=
  {t | (∃ q, p ≤ q ∧ q < p + n ∧ q / 512 = t) ∧ m.pageTables (t / 512) (t % 512) = 0#64}

theorem newTables_finite (m : PageMap) (p n : Nat) : (m.newTables p n).Finite := by
  refine (Set.finite_lt_nat (p + n)).subset ?_
  rintro t ⟨⟨q, -, hq, rfl⟩, -⟩
  exact (Nat.div_le_self q 512).trans_lt hq

theorem newTables_zero (m : PageMap) (p : Nat) : m.newTables p 0 = ∅ := by
  refine Set.eq_empty_iff_forall_notMem.mpr ?_
  rintro t ⟨⟨q, h1, h2, -⟩, -⟩
  omega

/-- A page whose table is there needs none. -/
theorem newTables_of_table {m : PageMap} {p : Nat}
    (ht : m.pageTables (p / 2 ^ 18) (p / 512 % 512) ≠ 0#64) (n : Nat) :
    m.newTables p (n + 1) = m.newTables (p + 1) n := by
  ext t
  constructor
  · rintro ⟨⟨q, h1, h2, rfl⟩, hnull⟩
    refine ⟨⟨q, ?_, by omega, rfl⟩, hnull⟩
    rcases Nat.lt_or_eq_of_le h1 with hlt | rfl
    · exact hlt
    · rw [Nat.div_div_eq_div_mul] at hnull
      exact absurd hnull ht
  · rintro ⟨⟨q, h1, h2, rfl⟩, hnull⟩
    exact ⟨⟨q, by omega, by omega, rfl⟩, hnull⟩

/-- A page whose table is missing needs that one, and it is there for the pages after it. -/
theorem newTables_of_null {m : PageMap} {p : Nat}
    (hnull : m.pageTables (p / 2 ^ 18) (p / 512 % 512) = 0#64) {virt : U64} (hvirt : virt ≠ 0#64)
    (n : Nat) : (m.newTables p (n + 1)).ncard =
      ((m.setPageTable (p / 2 ^ 18) (p / 512 % 512) virt).newTables (p + 1) n).ncard + 1 := by
  have hdiv : p / 512 / 512 = p / 2 ^ 18 := Nat.div_div_eq_div_mul p 512 512
  have hother : ∀ t, t ≠ p / 512 →
      ¬(t / 512 = p / 2 ^ 18 ∧ t % 512 = p / 512 % 512) := by
    intro t hne ⟨h1, h2⟩
    omega
  have hset : m.newTables p (n + 1) = insert (p / 512)
      ((m.setPageTable (p / 2 ^ 18) (p / 512 % 512) virt).newTables (p + 1) n) := by
    ext t
    rw [Set.mem_insert_iff]
    by_cases hp : t = p / 512
    · refine iff_of_true ⟨⟨p, le_rfl, by omega, hp.symm⟩, ?_⟩ (.inl hp)
      rw [hp, hdiv]
      exact hnull
    · simp only [newTables, Set.mem_ofPred_eq, pageTables_setPageTable, if_neg (hother t hp), hp,
        false_or]
      refine and_congr_left fun _ ↦ ⟨?_, ?_⟩
      · rintro ⟨q, h1, h2, rfl⟩
        refine ⟨q, ?_, by omega, rfl⟩
        rcases Nat.lt_or_eq_of_le h1 with hlt | rfl
        · exact hlt
        · exact absurd rfl hp
      · rintro ⟨q, h1, h2, rfl⟩
        exact ⟨q, by omega, by omega, rfl⟩
  rw [hset, Set.ncard_insert_of_notMem _ (newTables_finite _ _ _)]
  rintro ⟨-, h⟩
  rw [pageTables_setPageTable, if_pos ⟨hdiv, rfl⟩] at h
  exact hvirt h

/-- The pointer to the directory of a user address is never null. -/
theorem MapInv.mapPage_eq (phys : PhysOf) {k : KernelMem} {m : PageMap} (hm : MapInv k m)
    (flags frame : U64) {virt : U64} (hvirt : pml4Index virt = 0) :
    PageMap.mapPage phys flags frame virt m k = (do
      let (m, taken, k) ← PageMap.ensurePageTable phys (pdptIndex virt) (pdeIndex virt) m k
      let k ← k.store (m.pageTables (pdptIndex virt) (pdeIndex virt)) (ptIndex virt)
        (setPageFrame flags frame)
      return (m, taken, k)) := by
  obtain ⟨hp, hi, -, -⟩ := pageNumber_eq virt
  have hptr : m.pageDirs (pdptIndex virt) ≠ 0#64 := by
    intro h0
    have htr := hm.dir_ptr (pdptIndex virt) (by omega)
    rw [h0, translate_eq_some] at htr
    exact absurd htr.1 (by decide)
  rw [PageMap.mapPage, if_neg (by omega), if_neg hptr]

/-- `ensurePageTable`, when the table is there. -/
theorem MapInv.ensurePageTable_of_table (phys : PhysOf) {k : KernelMem} {m : PageMap}
    (hm : MapInv k m) {i j : Nat} (hi : i < 512) (hj : j < 512)
    (ht : m.pageTables i j ≠ 0#64) :
    PageMap.ensurePageTable phys i j m k = .ok (m, [], k) := by
  simp only [PageMap.ensurePageTable, load_eq (hm.dir_ptr i hi), Except.bind, bind, pure,
    Except.pure, if_pos ((hm.present_iff i hi j hj).mpr ht)]

/-- `ensurePageTable`, when it is not. -/
theorem MapInv.ensurePageTable_of_null (phys : PhysOf) {k : KernelMem} {m : PageMap}
    (hm : MapInv k m) {i j : Nat} (hi : i < 512) (hj : j < 512)
    (hnull : m.pageTables i j = 0#64) :
    PageMap.ensurePageTable phys i j m k = PageMap.createPageTable phys i j m k := by
  have habsent : ¬present (k.ram (m.dirFrame i) j) = true := by
    rw [hm.present_iff i hi j hj, hnull]
    simp
  simp only [PageMap.ensurePageTable, load_eq (hm.dir_ptr i hi), Except.bind, bind,
    if_neg habsent]

/-- The word of a page whose table is there is written, and nothing used up. -/
theorem MapInv.store_word {k : KernelMem} {m : PageMap} (hm : MapInv k m) (virt e : U64)
    (ht : m.pageTables (pdptIndex virt) (pdeIndex virt) ≠ 0#64) :
    ∃ k', k.store (m.pageTables (pdptIndex virt) (pdeIndex virt)) (ptIndex virt) e = .ok k' ∧
      MapInv k' m ∧ k'.blocks = k.blocks ∧ ∀ n, Supply k' n ↔ Supply k n := by
  obtain ⟨hp, hi, hj, hl⟩ := pageNumber_eq virt
  rw [← hi, ← hj] at ht
  obtain ⟨k', hstore, hstep, -⟩ := hm.step_of_store hp ht e
  rw [hi, hj, hl] at hstore
  obtain ⟨f, -, rfl⟩ := store_ok hstore
  exact ⟨_, hstore, hstep.inv, rfl, fun n ↦ supply_ram_iff _ n⟩

/-- **A page whose table is there** is mapped, and nothing used up. -/
theorem MapInv.mapPage_of_table (phys : PhysOf) {k : KernelMem} {m : PageMap} (hm : MapInv k m)
    (flags frame : U64) {virt : U64} (hvirt : pml4Index virt = 0)
    (ht : m.pageTables (pdptIndex virt) (pdeIndex virt) ≠ 0#64) :
    ∃ k', PageMap.mapPage phys flags frame virt m k = .ok (m, [], k') ∧ MapInv k' m ∧
      ∀ n, Supply k' n ↔ Supply k n := by
  obtain ⟨hp, hi, -, -⟩ := pageNumber_eq virt
  obtain ⟨k', hstore, hm', -, hsupply⟩ := hm.store_word virt (setPageFrame flags frame) ht
  refine ⟨k', ?_, hm', hsupply⟩
  rw [hm.mapPage_eq phys flags frame hvirt,
    hm.ensurePageTable_of_table phys (by omega) (pdeIndex_lt virt) ht]
  simp only [hstore, Except.bind, bind, pure, Except.pure]

/-- **A page whose table is missing** is mapped exactly if there is a page for the table. -/
theorem MapInv.mapPage_of_null (phys : PhysOf) {k : KernelMem} {m : PageMap} (hm : MapInv k m)
    (flags frame : U64) {virt : U64} (hvirt : pml4Index virt = 0)
    (hnull : m.pageTables (pdptIndex virt) (pdeIndex virt) = 0#64) :
    (∃ v taken k', v ≠ 0#64 ∧ PageMap.mapPage phys flags frame virt m k =
          .ok (m.setPageTable (pdptIndex virt) (pdeIndex virt) v, taken, k') ∧
        MapInv k' (m.setPageTable (pdptIndex virt) (pdeIndex virt) v) ∧
        k'.blocks.freeBlocks.ncard + 1 = k.blocks.freeBlocks.ncard ∧
        ∀ n, Supply k' n ↔ Supply k (n + 1)) ∨
      ¬Supply k 1 ∧ ∃ e, PageMap.mapPage phys flags frame virt m k = .error e := by
  obtain ⟨hp, hi, -, -⟩ := pageNumber_eq virt
  have hi' : pdptIndex virt < 512 := by omega
  have hj' := pdeIndex_lt virt
  rw [hm.mapPage_eq phys flags frame hvirt, hm.ensurePageTable_of_null phys hi' hj' hnull]
  have hdir := hm.dir_ptr (pdptIndex virt) hi'
  have howned := hm.owned (.dir (pdptIndex virt)) hi'
  rcases createPageTable_spec phys hm.toKernelInv (pdeIndex virt) hdir howned with
    ⟨v, b, k₁, hfresh, hcreate⟩ | ⟨e, hcreate, -⟩
  · have hstep := hm.step_of_table hi' hj' hnull hfresh
    have ht : (m.setPageTable (pdptIndex virt) (pdeIndex virt) v).pageTables (pdptIndex virt)
        (pdeIndex virt) ≠ 0#64 := by
      rw [pageTables_setPageTable, if_pos ⟨rfl, rfl⟩]
      exact hfresh.virt_ne_zero
    obtain ⟨k', hstore, hm', hblocks, hsupply⟩ :=
      hstep.inv.store_word virt (setPageFrame flags frame) ht
    refine .inl ⟨v, [blockAddr b], k', hfresh.virt_ne_zero, ?_, hm', ?_,
      fun n ↦ (hsupply n).trans ?_⟩
    · rw [hcreate]
      simp only [Except.bind, bind, hstore, pure, Except.pure]
    · rw [hblocks]
      show k₁.blocks.freeBlocks.ncard + 1 = _
      rw [hfresh.freeBlocks_eq]
      exact Set.ncard_sdiff_singleton_add_one hfresh.least.1 (freeBlocks_finite k.blocks)
    · exact (supply_ram_iff _ n).trans (hfresh.supply_iff hm.toKernelInv n)
  · refine .inr ⟨fun hs ↦ ?_, e, by rw [hcreate]; rfl⟩
    obtain ⟨v, b, k₁, hcall, hfresh, -⟩ := hs.mapFreshPage phys
    rw [createPageTable_of_fresh (pdeIndex virt) hdir howned hcall hfresh] at hcreate
    cases hcreate

end PageMap
end Borrrdex
