import Borrrdex.Lib.TwoRuns
import Borrrdex.Memory.PageMapWalk

/-!
# The life of a page map

`create_page_map` takes 517 blocks of its own and clears 512 of them, the directories; the PML4 is
overwritten whole.  The PDPT is neither: each of its entries is read, changed and written back, so
that whatever bits the block held outside of the frame survive.  `created_user_half_iff` says
exactly when the user half of a new address space depends on what was in that block.

`destroy_page_map` gives back less than was taken, whatever was mapped in between: it forgets the
blocks of the PML4 and of three arrays, and for a table it passes a frame number where
`free_physical_block` wants an address.  `destroy_not_inverse` is that, for every run.
-/

set_option autoImplicit false

namespace Borrrdex
namespace PageMap

open KernelMem KernelHeap PhysAllocator PageWalk

/-! ## Building the directories -/

/-- The tables of a map that has the directories below `n` and no tables yet. -/
def BuiltTo (n : Nat) : Node → Prop
  | .pml4 => True
  | .pdpt => True
  | .dir i => i < n
  | .table _ _ => False

/-- **What the loop of `create_page_map` keeps**, when directory `n` is next and `prior` is what the
block of the PDPT held before. -/
structure Building (prior : Nat → U64) (k : KernelMem) (m : PageMap) (n : Nat) : Prop
    extends KernelInv k where
  pml4_ptr : k.heap.translate m.pml4 = some m.pml4Frame
  pdpt_ptr : k.heap.translate m.pdpt = some m.pdptFrame
  dir_ptr : ∀ i < n, k.heap.translate (m.pageDirs i) = some (m.dirFrame i)
  dir_zero : ∀ i < n, ∀ j, k.ram (m.dirFrame i) j = 0#64
  pdpt_new : ∀ i < n, k.ram m.pdptFrame i = tableEntry (prior i) (m.dirFrame i)
  pdpt_old : ∀ i, n ≤ i → k.ram m.pdptFrame i = prior i
  no_tables : ∀ i j, m.pageTables i j = 0#64
  pdptPhys_eq : m.pdptPhys = blockAddr m.pdptFrame ∧ m.pdptFrame < 2 ^ 20
  dirPhys_eq : ∀ i < n, m.pageDirsPhys i = blockAddr (m.dirFrame i) ∧ m.dirFrame i < 2 ^ 20
  distinct : ∀ x y, BuiltTo n x → BuiltTo n y → nodeFrame k m x = nodeFrame k m y → x = y
  owned : ∀ x, BuiltTo n x → nodeFrame k m x ∉ k.blocks.freeBlocks

/-- The memory after the loop has cleared the directory in block `b` and made entry `i` of the PDPT
in block `p` frame it. -/
def dirRam (ram : Nat → Nat → U64) (p i b : Nat) : Nat → Nat → U64 :=
  Function.update (Function.update ram p (Function.update (ram p) i (tableEntry (ram p i) b))) b
    fun _ ↦ 0#64

theorem dirRam_new (ram : Nat → Nat → U64) (p i b l : Nat) : dirRam ram p i b b l = 0#64 := by
  rw [dirRam, Function.update_self]

theorem dirRam_entry (ram : Nat → Nat → U64) {p i b : Nat} (hb : p ≠ b) :
    dirRam ram p i b p i = tableEntry (ram p i) b := by
  rw [dirRam, Function.update_of_ne hb, Function.update_self, Function.update_self]

theorem dirRam_other (ram : Nat → Nat → U64) {p i b f l : Nat} (hb : f ≠ b)
    (hp : ¬(f = p ∧ l = i)) : dirRam ram p i b f l = ram f l := by
  rw [dirRam, Function.update_of_ne hb]
  by_cases hfp : f = p
  · subst hfp
    rw [Function.update_self, Function.update_of_ne fun hl ↦ hp ⟨rfl, hl⟩]
  · rw [Function.update_of_ne hfp]

theorem dirFrame_setPageDir (m : PageMap) (i : Nat) (dir : U64) {b : Nat} (hb : b < 2 ^ 52)
    (i' : Nat) : (m.setPageDir i dir (blockAddr b)).dirFrame i' =
      if i' = i then b else m.dirFrame i' := by
  simp only [dirFrame, setPageDir, Function.update_apply]
  split
  · exact blockAddr_shiftRight hb
  · rfl

/-- The body of the loop of `create_page_map`, once a fresh page has been found and `malloc` has
returned. -/
theorem createDir_of_fresh {phys : PhysOf} {mal : Malloc} {k k₁ k₂ : KernelMem} {m : PageMap}
    {i : Nat} (hptr : k.heap.translate m.pdpt = some m.pdptFrame) {dir : U64} {b : Nat}
    (hcall : mapFreshPage phys k = .ok (dir, blockAddr b, k₁)) (hfresh : FreshPage k dir b k₁)
    (hmal : mallocPages phys (mal.requests (i + 1)) k₁ = .ok k₂) :
    createDir phys mal i m k = .ok (m.setPageDir i dir (blockAddr b), [blockAddr b],
      { k₂ with ram := dirRam k.ram m.pdptFrame i b }) := by
  obtain ⟨hext, hram⟩ := mallocPages_extends hfresh.toKernelInv (mal.requests_pos (i + 1)) hmal
  have hram₂ : k₂.ram = k.ram := hram.trans hfresh.ram_eq
  have hptr₂ := hext.translate_mono _ _ (hfresh.translate_mono _ _ hptr)
  have hdir₂ := hext.translate_mono _ _ hfresh.translate_eq
  let k₃ : KernelMem := { k₂ with
    ram := Function.update k₂.ram m.pdptFrame (Function.update (k₂.ram m.pdptFrame) i
      (setPageFrame (k₂.ram m.pdptFrame i) (blockAddr b) ||| userFlags)) }
  have hload := load_eq hptr₂ i
  have hstore : k₂.store m.pdpt i (setPageFrame (k₂.ram m.pdptFrame i) (blockAddr b) |||
      userFlags) = .ok k₃ := store_eq hptr₂ i _
  have hdir₃ : k₃.heap.translate dir = some b := hdir₂
  have hfill := fillPage_eq hdir₃ fun _ ↦ 0#64
  simp only [createDir, hcall, hmal, hload, hstore, hfill, Except.bind, bind, pure, Except.pure]
  simp only [k₃, hram₂]
  rfl

/-- One more directory. -/
theorem Building.step {prior : Nat → U64} {k k₁ k₂ : KernelMem} {m : PageMap} {i : Nat}
    (hb : Building prior k m i) {dir : U64} {b : Nat} (hfresh : FreshPage k dir b k₁)
    (hext : Extends k₁ k₂) :
    Building prior { k₂ with ram := dirRam k.ram m.pdptFrame i b }
      (m.setPageDir i dir (blockAddr b)) (i + 1) := by
  have hfree := hfresh.least.1
  have hb20 : b < 2 ^ 20 := freeBlocks_lt hfree
  have hb52 : b < 2 ^ 52 := hb20.trans (by decide)
  have hne : ∀ {x : Node}, BuiltTo i x → nodeFrame k m x ≠ b := fun hx heq ↦
    hb.owned _ hx (heq ▸ hfree)
  have hpdpt : m.pdptFrame ≠ b := hne (x := .pdpt) trivial
  have hold : ∀ d < i, m.dirFrame d ≠ b := fun d hd ↦ hne (x := .dir d) hd
  have hextends : Extends k k₂ := hfresh.toExtends.trans hext
  let k' : KernelMem := { k₂ with ram := dirRam k.ram m.pdptFrame i b }
  let m' := m.setPageDir i dir (blockAddr b)
  have hdir : ∀ d, m'.dirFrame d = if d = i then b else m.dirFrame d :=
    dirFrame_setPageDir m i dir hb52
  have hnode : ∀ x, BuiltTo (i + 1) x → (x = .dir i ∧ nodeFrame k' m' x = b) ∨
      (BuiltTo i x ∧ nodeFrame k' m' x = nodeFrame k m x) := by
    intro x hx
    cases x with
    | pml4 => exact .inr ⟨trivial, rfl⟩
    | pdpt => exact .inr ⟨trivial, rfl⟩
    | table i j => exact hx.elim
    | dir d =>
      have hd : d < i + 1 := hx
      by_cases hdi : d = i
      · exact .inl ⟨by rw [hdi], (hdir d).trans (if_pos hdi)⟩
      · exact .inr ⟨show d < i by omega, (hdir d).trans (if_neg hdi)⟩
  refine ⟨⟨hext.hint, hext.heapInv⟩, hextends.translate_mono _ _ hb.pml4_ptr,
    hextends.translate_mono _ _ hb.pdpt_ptr, fun d hd ↦ ?_, fun d hd j ↦ ?_, fun d hd ↦ ?_,
    fun d hd ↦ ?_, fun d j ↦ ?_, hb.pdptPhys_eq, fun d hd ↦ ?_, fun x y hx hy heq ↦ ?_,
    fun x hx hmem ↦ ?_⟩
  · show k₂.heap.translate (Function.update m.pageDirs i dir d) = some (m'.dirFrame d)
    rw [hdir, Function.update_apply]
    split
    · exact hext.translate_mono _ _ hfresh.translate_eq
    · exact hextends.translate_mono _ _ (hb.dir_ptr d (by omega))
  · show dirRam k.ram m.pdptFrame i b (m'.dirFrame d) j = 0#64
    rw [hdir]
    split
    · exact dirRam_new _ _ _ _ _
    · have hd' : d < i := by omega
      have hnot : ¬(m.dirFrame d = m.pdptFrame ∧ j = i) := by
        rintro ⟨heq, -⟩
        cases hb.distinct (.dir d) .pdpt hd' trivial heq
      rw [dirRam_other k.ram (hold d hd') hnot]
      exact hb.dir_zero d hd' j
  · show dirRam k.ram m.pdptFrame i b m.pdptFrame d = tableEntry (prior d) (m'.dirFrame d)
    rw [hdir]
    split
    · next hdi => rw [hdi, dirRam_entry k.ram hpdpt, hb.pdpt_old i le_rfl]
    · next hdi =>
      rw [dirRam_other k.ram hpdpt fun h ↦ hdi h.2]
      exact hb.pdpt_new d (by omega)
  · show dirRam k.ram m.pdptFrame i b m.pdptFrame d = prior d
    rw [dirRam_other k.ram hpdpt fun h ↦ by omega]
    exact hb.pdpt_old d (by omega)
  · show Function.update m.pageTables i (fun _ ↦ 0#64) d j = 0#64
    rw [Function.update_apply]
    split
    · rfl
    · exact hb.no_tables d j
  · show Function.update m.pageDirsPhys i (blockAddr b) d = blockAddr (m'.dirFrame d) ∧ _
    rw [hdir, Function.update_apply]
    split
    · exact ⟨rfl, hb20⟩
    · exact hb.dirPhys_eq d (by omega)
  · rcases hnode x hx with ⟨hxi, hxb⟩ | ⟨hlx, hxf⟩ <;>
      rcases hnode y hy with ⟨hyi, hyb⟩ | ⟨hly, hyf⟩
    · rw [hxi, hyi]
    · exact absurd (hyf.symm.trans (heq.symm.trans hxb)) (hne hly)
    · exact absurd (hxf.symm.trans (heq.trans hyb)) (hne hlx)
    · exact hb.distinct x y hlx hly (hxf.symm.trans (heq.trans hyf))
  · have hmem₁ := hext.freeBlocks_subset hmem
    rw [hfresh.freeBlocks_eq] at hmem₁
    rcases hnode x hx with ⟨-, hxb⟩ | ⟨hlx, hxf⟩
    · exact hmem₁.2 hxb
    · rw [hxf] at hmem₁
      exact hb.owned x hlx hmem₁.1

theorem createDir_spec {phys : PhysOf} {mal : Malloc} {prior : Nat → U64} {k k' : KernelMem}
    {m m' : PageMap} {i : Nat} {taken : List U64} (hb : Building prior k m i)
    (hcall : createDir phys mal i m k = .ok (m', taken, k')) :
    taken.length = 1 ∧ m'.pdptPhys = m.pdptPhys ∧ Building prior k' m' (i + 1) := by
  rcases mapFreshPage_spec phys hb.toKernelInv with ⟨dir, b, k₁, hpage, hfresh⟩ | ⟨e, hpage, -⟩
  · cases hmal : mallocPages phys (mal.requests (i + 1)) k₁ with
    | error e =>
      simp only [createDir, hpage, hmal, Except.bind, bind] at hcall
      cases hcall
    | ok k₂ =>
      rw [createDir_of_fresh hb.pdpt_ptr hpage hfresh hmal] at hcall
      cases hcall
      have hext := (mallocPages_extends hfresh.toKernelInv (mal.requests_pos (i + 1)) hmal).1
      exact ⟨rfl, rfl, hb.step hfresh hext⟩
  · simp only [createDir, hpage, Except.bind, bind] at hcall
    cases hcall

theorem createDirs_spec {phys : PhysOf} {mal : Malloc} {prior : Nat → U64} {n : Nat} :
    ∀ {i : Nat} {k k' : KernelMem} {m m' : PageMap} {taken : List U64}, Building prior k m i →
      createDirs phys mal n i m k = .ok (m', taken, k') →
      taken.length = n ∧ m'.pdptPhys = m.pdptPhys ∧ Building prior k' m' (i + n) := by
  induction n with
  | zero =>
    intro i k k' m m' taken hb hcall
    cases hcall
    exact ⟨rfl, rfl, hb⟩
  | succ n ih =>
    intro i k k' m m' taken hb hcall
    rw [createDirs] at hcall
    obtain ⟨⟨m₁, taken₁, k₁⟩, hdir, hcall⟩ := bind_eq_ok.mp hcall
    obtain ⟨⟨m₂, taken₂, k₂⟩, hdirs, hcall⟩ := bind_eq_ok.mp hcall
    cases hcall
    obtain ⟨hlen, hphys, hb₁⟩ := createDir_spec hb hdir
    obtain ⟨hlen', hphys', hb₂⟩ := ih hb₁ hdirs
    refine ⟨by rw [List.length_append]; omega, hphys'.trans hphys, ?_⟩
    rwa [show i + (n + 1) = i + 1 + n by omega]

/-- A fresh page, inverted. -/
theorem mapFreshPage_ok {phys : PhysOf} {k k' : KernelMem} (hk : KernelInv k) {virt frame : U64}
    (hcall : mapFreshPage phys k = .ok (virt, frame, k')) :
    ∃ b, frame = blockAddr b ∧ FreshPage k virt b k' := by
  rcases mapFreshPage_spec phys hk with ⟨virt', b, k'', hcall', hfresh⟩ | ⟨e, hcall', -⟩
  · rw [hcall'] at hcall
    cases hcall
    exact ⟨b, rfl, hfresh⟩
  · rw [hcall'] at hcall
    cases hcall

/-- A fresh page's block is still in use when further pages have been taken. -/
theorem FreshPage.ne_of_later {k k₁ k₂ k₃ : KernelMem} {virt virt' : U64} {b b' : Nat}
    (h : FreshPage k virt b k₁) (hext : Extends k₁ k₂) (h' : FreshPage k₂ virt' b' k₃) :
    b ≠ b' ∧ b ∉ k₃.blocks.freeBlocks ∧ b' ∉ k₃.blocks.freeBlocks := by
  have hnot : b ∉ k₁.blocks.freeBlocks := by
    rw [h.freeBlocks_eq]
    exact fun hb ↦ hb.2 rfl
  have hnot' : b' ∉ k₃.blocks.freeBlocks := by
    rw [h'.freeBlocks_eq]
    exact fun hb ↦ hb.2 rfl
  refine ⟨fun heq ↦ hnot (hext.freeBlocks_subset (heq ▸ h'.least.1)), fun hb ↦ ?_, hnot'⟩
  exact hnot (hext.freeBlocks_subset (h'.freeBlocks_subset hb))

theorem createRoot_spec {phys : PhysOf} {mal : Malloc} {kernelPml4 : Nat → U64}
    {k k' : KernelMem} {m : PageMap} {taken : List U64} (hk : KernelInv k)
    (hcall : createRoot phys mal kernelPml4 k = .ok (m, taken, k')) :
    taken.length = 5 ∧ Building (k.ram m.pdptFrame) k' m 0 := by
  rw [createRoot] at hcall
  obtain ⟨k₀, hmal, hcall⟩ := bind_eq_ok.mp hcall
  obtain ⟨⟨pdpt, pdptPhys, k₁⟩, h₁, hcall⟩ := bind_eq_ok.mp hcall
  obtain ⟨⟨virt₂, frame₂, k₂⟩, h₂, hcall⟩ := bind_eq_ok.mp hcall
  obtain ⟨⟨virt₃, frame₃, k₃⟩, h₃, hcall⟩ := bind_eq_ok.mp hcall
  obtain ⟨⟨virt₄, frame₄, k₄⟩, h₄, hcall⟩ := bind_eq_ok.mp hcall
  obtain ⟨⟨pml4, pml4Phys, k₅⟩, h₅, hcall⟩ := bind_eq_ok.mp hcall
  obtain ⟨k₆, hfill, hcall⟩ := bind_eq_ok.mp hcall
  cases hcall
  obtain ⟨hext₀, hram₀⟩ := mallocPages_extends hk (mal.requests_pos 0) hmal
  obtain ⟨b, rfl, hf₁⟩ := mapFreshPage_ok hext₀.toKernelInv h₁
  obtain ⟨b₂, rfl, hf₂⟩ := mapFreshPage_ok hf₁.toKernelInv h₂
  obtain ⟨b₃, rfl, hf₃⟩ := mapFreshPage_ok hf₂.toKernelInv h₃
  obtain ⟨b₄, rfl, hf₄⟩ := mapFreshPage_ok hf₃.toKernelInv h₄
  obtain ⟨b₅, rfl, hf₅⟩ := mapFreshPage_ok hf₄.toKernelInv h₅
  rw [fillPage_eq hf₅.translate_eq] at hfill
  cases hfill
  have hext : Extends k₁ k₄ := (hf₂.toExtends.trans hf₃.toExtends).trans hf₄.toExtends
  obtain ⟨hne, hb, hb₅⟩ := FreshPage.ne_of_later hf₁ hext hf₅
  have hlt : ∀ {a : PhysAllocator} {c : Nat}, c ∈ a.freeBlocks → c < 2 ^ 52 := fun hc ↦
    (freeBlocks_lt hc).trans (by decide)
  have hpdpt : (blockAddr b >>> 12).toNat = b := blockAddr_shiftRight (hlt hf₁.least.1)
  have hpml4 : (blockAddr b₅ >>> 12).toNat = b₅ := blockAddr_shiftRight (hlt hf₅.least.1)
  have hram : k₅.ram = k.ram := by
    rw [hf₅.ram_eq, hf₄.ram_eq, hf₃.ram_eq, hf₂.ram_eq, hf₁.ram_eq, hram₀]
  refine ⟨rfl, ⟨hf₅.hint, hf₅.heapInv⟩, ?_, ?_, fun i hi ↦ by omega, fun i hi ↦ by omega,
    fun i hi ↦ by omega, fun i _ ↦ ?_, fun _ _ ↦ rfl, ?_, fun i hi ↦ by omega,
    fun x y hx hy heq ↦ ?_, fun x hx ↦ ?_⟩
  · show k₅.heap.translate pml4 = some (blockAddr b₅ >>> 12).toNat
    rw [hpml4]
    exact hf₅.translate_eq
  · show k₅.heap.translate pdpt = some (blockAddr b >>> 12).toNat
    rw [hpdpt]
    exact hf₅.translate_mono _ _ (hext.translate_mono _ _ hf₁.translate_eq)
  · show Function.update k₅.ram b₅ kernelPml4 (blockAddr b >>> 12).toNat i =
      k.ram (blockAddr b >>> 12).toNat i
    rw [hpdpt, Function.update_of_ne hne, hram]
  · show blockAddr b = blockAddr (blockAddr b >>> 12).toNat ∧ (blockAddr b >>> 12).toNat < 2 ^ 20
    rw [hpdpt]
    exact ⟨rfl, freeBlocks_lt hf₁.least.1⟩
  · cases x with
    | dir i => exact absurd hx (Nat.not_lt_zero i)
    | table i j => exact hx.elim
    | pml4 =>
      cases y with
      | dir i => exact absurd hy (Nat.not_lt_zero i)
      | table i j => exact hy.elim
      | pml4 => rfl
      | pdpt => exact absurd (hpdpt.symm.trans (heq.symm.trans hpml4)) hne
    | pdpt =>
      cases y with
      | dir i => exact absurd hy (Nat.not_lt_zero i)
      | table i j => exact hy.elim
      | pdpt => rfl
      | pml4 => exact absurd (hpdpt.symm.trans (heq.trans hpml4)) hne
  · cases x with
    | dir i => exact absurd hx (Nat.not_lt_zero i)
    | table i j => exact hx.elim
    | pml4 =>
      show (blockAddr b₅ >>> 12).toNat ∉ k₅.blocks.freeBlocks
      rwa [hpml4]
    | pdpt =>
      show (blockAddr b >>> 12).toNat ∉ k₅.blocks.freeBlocks
      rwa [hpdpt]

/-- **A new page map**, with all it needs to be walked and mapped into. -/
structure Created (k : KernelMem) (m : PageMap) (k' : KernelMem) : Prop where
  inv : MapInv k' m
  pdpt_ptr : k'.heap.translate m.pdpt = some m.pdptFrame
  no_tables : ∀ i j, m.pageTables i j = 0#64
  dir_zero : ∀ i < 512, ∀ j, k'.ram (m.dirFrame i) j = 0#64
  pml4_entry : k'.ram m.pml4Frame 0 =
    m.pdptPhys ||| tablePresent ||| tableWriteable ||| pageUser
  pdpt_entry : ∀ i < 512, k'.ram m.pdptFrame i = tableEntry (k.ram m.pdptFrame i) (m.dirFrame i)
  pdptPhys_eq : m.pdptPhys = blockAddr m.pdptFrame ∧ m.pdptFrame < 2 ^ 20
  dirPhys_eq : ∀ i < 512, m.pageDirsPhys i = blockAddr (m.dirFrame i) ∧ m.dirFrame i < 2 ^ 20

/-- With all its directories built, a map is complete. -/
theorem Building.mapInv {prior : Nat → U64} {k : KernelMem} {m : PageMap}
    (hb : Building prior k m 512) : MapInv k m := by
  have hlive : ∀ x, m.Live x → BuiltTo 512 x := by
    intro x hx
    cases x with
    | pml4 => trivial
    | pdpt => trivial
    | dir i => exact hx
    | table i j => exact absurd (hb.no_tables i j) hx.2.2
  refine ⟨hb.toKernelInv, ⟨hb.dir_ptr, fun i _ j _ ht ↦ absurd (hb.no_tables i j) ht,
    fun i hi j _ ↦ ?_, fun i _ j _ ht ↦ absurd (hb.no_tables i j) ht,
    fun x y hx hy ↦ hb.distinct x y (hlive x hx) (hlive y hy)⟩,
    fun x hx ↦ hb.owned x (hlive x hx), fun i hi j _ _ ↦ ?_⟩
  · rw [hb.dir_zero i hi j, hb.no_tables i j]
    exact iff_of_false (by decide) fun h ↦ h rfl
  · rw [hb.dir_zero i hi j]
    decide

theorem createPageMap_spec {phys : PhysOf} {mal : Malloc} {kernelPml4 : Nat → U64}
    {k k' : KernelMem} {m : PageMap} {taken : List U64} (hk : KernelInv k)
    (hcall : createPageMap phys mal kernelPml4 k = .ok (m, taken, k')) :
    taken.length = 517 ∧ Created k m k' := by
  rw [createPageMap] at hcall
  obtain ⟨⟨m₁, taken₁, k₁⟩, hroot, hcall⟩ := bind_eq_ok.mp hcall
  obtain ⟨⟨m₂, taken₂, k₂⟩, hdirs, hcall⟩ := bind_eq_ok.mp hcall
  obtain ⟨k₃, hstore, hcall⟩ := bind_eq_ok.mp hcall
  cases hcall
  obtain ⟨hlen₁, hb₁⟩ := createRoot_spec hk hroot
  obtain ⟨hlen₂, hphys, hb⟩ := createDirs_spec hb₁ hdirs
  rw [Nat.zero_add] at hb
  have hprior : m₁.pdptFrame = m.pdptFrame := by rw [pdptFrame, pdptFrame, hphys]
  rw [hprior] at hb
  rw [store_eq hb.pml4_ptr] at hstore
  cases hstore
  -- the PML4 shares its block with no other table
  have hother : ∀ {x : Node}, BuiltTo 512 x → x ≠ .pml4 → nodeFrame k₂ m x ≠ m.pml4Frame :=
    fun hx hne heq ↦ hne (hb.distinct _ .pml4 hx trivial heq)
  have hdir : ∀ i < 512, m.dirFrame i ≠ m.pml4Frame := fun i hi ↦
    hother (x := .dir i) hi (by simp)
  have hpdpt : m.pdptFrame ≠ m.pml4Frame := hother (x := .pdpt) trivial (by simp)
  refine ⟨by rw [List.length_append]; omega, ?_, hb.pdpt_ptr, hb.no_tables, fun i hi j ↦ ?_, ?_,
    fun i hi ↦ ?_, hb.pdptPhys_eq, hb.dirPhys_eq⟩
  · refine hb.mapInv.of_extends (hb.extends_ram _) fun i hi j _ ↦ ?_
    exact congrFun (Function.update_of_ne (hdir i hi) _ _) j
  · exact (congrFun (Function.update_of_ne (hdir i hi) _ _) j).trans (hb.dir_zero i hi j)
  · simp only [Function.update_self]
  · exact (congrFun (Function.update_of_ne hpdpt _ _) i).trans (hb.pdpt_new i hi)

/-! ## Two runs of `create_page_map`

Which pages and blocks `create_page_map` takes, and so the map it returns, does not depend on what
the blocks hold. -/

/-- The two memories differ at most in what the blocks hold. -/
def SameAllocators (k k' : KernelMem) : Prop := k.blocks = k'.blocks ∧ k.heap = k'.heap

/-- The same results, and memories that differ at most in what the blocks hold. -/
def SameResult {α : Type} (a b : α × KernelMem) : Prop := a.1 = b.1 ∧ SameAllocators a.2 b.2

theorem load_agree {k k' : KernelMem} (h : SameAllocators k k') (virt : U64) (i : Nat) :
    Agree (fun _ _ ↦ True) (k.load virt i) (k'.load virt i) := by
  rw [load, load, ← h.2]
  split
  · exact .error _
  · exact .ok trivial

theorem store_agree {k k' : KernelMem} (h : SameAllocators k k') (virt : U64) (i : Nat)
    (word word' : U64) : Agree SameAllocators (k.store virt i word) (k'.store virt i word') := by
  rw [store, store, ← h.2]
  split
  · exact .error _
  · exact .ok ⟨h.1, rfl⟩

theorem fillPage_agree {k k' : KernelMem} (h : SameAllocators k k') (virt : U64)
    (words : Nat → U64) : Agree SameAllocators (k.fillPage virt words)
      (k'.fillPage virt words) := by
  rw [fillPage, fillPage, ← h.2]
  split
  · exact .error _
  · exact .ok ⟨h.1, rfl⟩

theorem mapFreshPage_agree (phys : PhysOf) {k k' : KernelMem} (h : SameAllocators k k') :
    Agree (fun a b ↦ a.1 = b.1 ∧ SameResult a.2 b.2) (mapFreshPage phys k)
      (mapFreshPage phys k') := by
  rw [mapFreshPage, mapFreshPage, ← h.1, ← h.2]
  cases kernelAllocate4kPages phys 1 k.heap with
  | error e => exact .error e
  | ok r =>
    cases k.blocks.allocatePhysicalBlock with
    | error e => exact .error e
    | ok r' => exact .ok ⟨rfl, rfl, rfl, rfl⟩

theorem backPages_agree (addr : U64) (n : Nat) : ∀ (i : Nat) {k k' : KernelMem},
    SameAllocators k k' → Agree SameResult (backPages addr n i k) (backPages addr n i k') := by
  induction n with
  | zero => exact fun i k k' h ↦ .ok ⟨rfl, h⟩
  | succ n ih =>
    intro i k k' h
    rw [backPages, backPages, ← h.1, ← h.2]
    cases k.blocks.allocatePhysicalBlock with
    | error e => exact .error e
    | ok r =>
      obtain ⟨frame, blocks⟩ := r
      have hsame : SameAllocators
          { k with
            blocks := blocks
            heap := kernelMapVirtualMemory4k kernelFlags 1 frame (pageAt addr i) k.heap }
          { k' with
            blocks := blocks
            heap := kernelMapVirtualMemory4k kernelFlags 1 frame (pageAt addr i) k.heap } :=
        ⟨rfl, rfl⟩
      rcases ih (i + 1) hsame with ⟨e, he, he'⟩ | ⟨a, b, ha, hb, hab⟩
      · simp only [he, he']
        exact .error e
      · simp only [ha, hb, hab.1]
        exact .ok ⟨rfl, hab.2⟩

theorem mallocPages_agree (phys : PhysOf) (ns : List Nat) : ∀ {k k' : KernelMem},
    SameAllocators k k' →
      Agree SameAllocators (mallocPages phys ns k) (mallocPages phys ns k') := by
  induction ns with
  | nil => exact fun h ↦ .ok h
  | cons n ns ih =>
    intro k k' h
    have halloc : Agree (fun a b ↦ SameAllocators a.2.2 b.2.2) (liballocAlloc phys n k)
        (liballocAlloc phys n k') := by
      rw [liballocAlloc, liballocAlloc, ← h.2]
      cases kernelAllocate4kPages phys n k.heap with
      | error e => exact .error e
      | ok r =>
        obtain ⟨addr, heap⟩ := r
        have hsame : SameAllocators { k with heap := heap } { k' with heap := heap } := ⟨h.1, rfl⟩
        rcases backPages_agree addr n 0 hsame with ⟨e, he, he'⟩ | ⟨a, b, ha, hb, hab⟩
        · simp only [he, he']
          exact .error e
        · simp only [ha, hb]
          exact .ok hab.2
    exact halloc.bind fun a b hab ↦ ih hab

theorem createDir_agree (phys : PhysOf) (mal : Malloc) (i : Nat) (m : PageMap) {k k' : KernelMem}
    (h : SameAllocators k k') :
    Agree (fun a b ↦ a.1 = b.1 ∧ SameResult a.2 b.2) (createDir phys mal i m k)
      (createDir phys mal i m k') := by
  refine (mapFreshPage_agree phys h).bind ?_
  rintro ⟨dir, dirPhys, k₁⟩ ⟨_, _, k₁'⟩ ⟨rfl, rfl, h₁⟩
  refine (mallocPages_agree phys _ h₁).bind fun k₂ k₂' h₂ ↦ ?_
  refine (load_agree h₂ m.pdpt i).bind fun e e' _ ↦ ?_
  refine (store_agree h₂ m.pdpt i _ _).bind fun k₃ k₃' h₃ ↦ ?_
  refine (fillPage_agree h₃ dir _).bind fun k₄ k₄' h₄ ↦ ?_
  exact .ok ⟨rfl, rfl, h₄⟩

theorem createDirs_agree (phys : PhysOf) (mal : Malloc) (n : Nat) :
    ∀ (i : Nat) (m : PageMap) {k k' : KernelMem}, SameAllocators k k' →
      Agree (fun a b ↦ a.1 = b.1 ∧ SameResult a.2 b.2) (createDirs phys mal n i m k)
        (createDirs phys mal n i m k') := by
  induction n with
  | zero => exact fun i m k k' h ↦ .ok ⟨rfl, rfl, h⟩
  | succ n ih =>
    intro i m k k' h
    refine (createDir_agree phys mal i m h).bind ?_
    rintro ⟨m₁, taken₁, k₁⟩ ⟨_, _, k₁'⟩ ⟨rfl, rfl, h₁⟩
    refine (ih (i + 1) m₁ h₁).bind ?_
    rintro ⟨m₂, taken₂, k₂⟩ ⟨_, _, k₂'⟩ ⟨rfl, rfl, h₂⟩
    exact .ok ⟨rfl, rfl, h₂⟩

/-- **`create_page_map` takes the same pages and blocks**, whatever the blocks hold. -/
theorem createPageMap_agree (phys : PhysOf) (mal : Malloc) (kernelPml4 : Nat → U64)
    {k k' : KernelMem} (h : SameAllocators k k') :
    Agree (fun a b ↦ a.1 = b.1 ∧ SameResult a.2 b.2) (createPageMap phys mal kernelPml4 k)
      (createPageMap phys mal kernelPml4 k') := by
  have hroot : Agree (fun a b ↦ a.1 = b.1 ∧ SameResult a.2 b.2)
      (createRoot phys mal kernelPml4 k) (createRoot phys mal kernelPml4 k') := by
    refine (mallocPages_agree phys _ h).bind fun k₀ k₀' h₀ ↦ ?_
    refine (mapFreshPage_agree phys h₀).bind ?_
    rintro ⟨pdpt, pdptPhys, k₁⟩ ⟨_, _, k₁'⟩ ⟨rfl, rfl, h₁⟩
    refine (mapFreshPage_agree phys h₁).bind ?_
    rintro ⟨virt₂, frame₂, k₂⟩ ⟨_, _, k₂'⟩ ⟨rfl, rfl, h₂⟩
    refine (mapFreshPage_agree phys h₂).bind ?_
    rintro ⟨virt₃, frame₃, k₃⟩ ⟨_, _, k₃'⟩ ⟨rfl, rfl, h₃⟩
    refine (mapFreshPage_agree phys h₃).bind ?_
    rintro ⟨virt₄, frame₄, k₄⟩ ⟨_, _, k₄'⟩ ⟨rfl, rfl, h₄⟩
    refine (mapFreshPage_agree phys h₄).bind ?_
    rintro ⟨pml4, pml4Phys, k₅⟩ ⟨_, _, k₅'⟩ ⟨rfl, rfl, h₅⟩
    refine (fillPage_agree h₅ pml4 kernelPml4).bind fun k₆ k₆' h₆ ↦ ?_
    exact .ok ⟨rfl, rfl, h₆⟩
  refine hroot.bind ?_
  rintro ⟨m₁, taken₁, k₁⟩ ⟨_, _, k₁'⟩ ⟨rfl, rfl, h₁⟩
  refine (createDirs_agree phys mal 512 0 m₁ h₁).bind ?_
  rintro ⟨m₂, taken₂, k₂⟩ ⟨_, _, k₂'⟩ ⟨rfl, rfl, h₂⟩
  refine (store_agree h₂ m₂.pml4 0 _ _).bind fun k₃ k₃' h₃ ↦ ?_
  exact .ok ⟨rfl, rfl, h₃⟩

/-! ## What survives in the PDPT -/

/-- The bits of a PDPT entry that `create_page_map` does not write. -/
def strayBits : U64 := ~~~(pageFrame ||| userFlags)

/-- No word has one of them set. -/
def NoStray (words : Nat → U64) : Prop := ∀ i < 512, words i &&& strayBits = 0#64

/-- **A clean user half**: the hardware finds no user page, and no PDPT entry has bits other than
its directory's frame, present, writable and user. -/
structure UserHalfClean (k : KernelMem) (m : PageMap) : Prop where
  walk_none : ∀ v, pml4Index v = 0 →
    (walk entryFormat k.ram m.pml4Frame (walkPath v)).page entryFormat = none
  pdpt_eq : ∀ i < 512, k.ram m.pdptFrame i = m.pageDirsPhys i ||| userFlags

theorem blockAddr_and_pageFrame {b : Nat} (hb : b < 2 ^ 40) :
    blockAddr b &&& pageFrame = blockAddr b := by
  refine BitVec.eq_of_toNat_eq ?_
  rw [toNat_and_pageFrame, toNat_blockAddr (by omega), Nat.shiftRight_eq_div_pow,
    Nat.shiftLeft_eq]
  omega

/-- An entry is exactly frame and flags if and only if the old word had no stray bits. -/
theorem tableEntry_eq_iff (old : U64) {b : Nat} (hb : b < 2 ^ 40) :
    tableEntry old b = blockAddr b ||| userFlags ↔ old &&& strayBits = 0#64 := by
  have hframe := blockAddr_and_pageFrame hb
  rw [tableEntry, setPageFrame, hframe, strayBits]
  constructor
  · intro h
    have hmask := congrArg (fun x ↦ x &&& ~~~(pageFrame ||| userFlags)) h
    rw [← hframe] at hmask
    refine Eq.trans ?_ (hmask.trans ?_)
    · refine BitVec.eq_of_getLsbD_eq fun i hi ↦ ?_
      simp only [BitVec.getLsbD_and, BitVec.getLsbD_or, BitVec.getLsbD_not, hi, decide_true,
        Bool.true_and]
      cases pageFrame.getLsbD i <;> cases userFlags.getLsbD i <;> simp
    · refine BitVec.eq_of_getLsbD_eq fun i hi ↦ ?_
      simp only [BitVec.getLsbD_and, BitVec.getLsbD_or, BitVec.getLsbD_not, hi, decide_true,
        Bool.true_and, BitVec.getLsbD_zero]
      cases pageFrame.getLsbD i <;> cases userFlags.getLsbD i <;> simp
  · intro h
    have hlow : (old &&& ~~~pageFrame) ||| userFlags = userFlags := by
      refine BitVec.eq_of_getLsbD_eq fun i hi ↦ ?_
      have hi' := congrArg (fun x ↦ BitVec.getLsbD x i) h
      simp only [BitVec.getLsbD_and, BitVec.getLsbD_or, BitVec.getLsbD_not, hi, decide_true,
        Bool.true_and, BitVec.getLsbD_zero] at hi' ⊢
      cases hu : userFlags.getLsbD i
      · rw [hu, Bool.or_false] at hi'
        rw [hi']
        rfl
      · rw [Bool.or_true]
    rw [BitVec.or_assoc, BitVec.or_comm (blockAddr b), ← BitVec.or_assoc, hlow, BitVec.or_comm]

/-- The first entry of the PML4 frames the PDPT. -/
theorem Created.pml4_walk {k k' : KernelMem} {m : PageMap} (hc : Created k m k') :
    present (k'.ram m.pml4Frame 0) = true ∧ frameOf (k'.ram m.pml4Frame 0) = m.pdptFrame := by
  obtain ⟨hphys, hlt⟩ := hc.pdptPhys_eq
  constructor
  · rw [hc.pml4_entry, present_or, present_or, present_or]
    simp only [show present tablePresent = true by decide, Bool.or_true, Bool.true_or]
  · rw [hc.pml4_entry, frameOf_or (by decide), frameOf_or (by decide), frameOf_or (by decide),
      hphys, frameOf_blockAddr (hlt.trans (by decide))]

/-- **The PDPT of a new map, exactly.**  The user half is clean if and only if the block the PDPT
is in held no stray bits. -/
theorem Created.userHalfClean_iff {k k' : KernelMem} {m : PageMap} (hc : Created k m k') :
    UserHalfClean k' m ↔ NoStray (k.ram m.pdptFrame) := by
  have hentry : ∀ i < 512, (k'.ram m.pdptFrame i = m.pageDirsPhys i ||| userFlags ↔
      k.ram m.pdptFrame i &&& strayBits = 0#64) := by
    intro i hi
    obtain ⟨hphys, hlt⟩ := hc.dirPhys_eq i hi
    rw [hc.pdpt_entry i hi, hphys]
    exact tableEntry_eq_iff _ (hlt.trans (by decide))
  refine ⟨fun hclean i hi ↦ (hentry i hi).mp (hclean.pdpt_eq i hi), fun hstray ↦
    ⟨fun v hv ↦ ?_, fun i hi ↦ (hentry i hi).mpr (hstray i hi)⟩⟩
  obtain ⟨hpml4, hpml4'⟩ := hc.pml4_walk
  have hi : pdptIndex v < 512 := by
    rw [pdptIndex_eq]
    exact Nat.mod_lt _ (by decide)
  have hlarge : large (k.ram m.pdptFrame (pdptIndex v)) = false := by
    have hbit := congrArg (fun x ↦ BitVec.getLsbD x 7) (hstray _ hi)
    simp only [BitVec.getLsbD_and, show strayBits.getLsbD 7 = true by decide, Bool.and_true,
      BitVec.getLsbD_zero] at hbit
    rw [large_eq, hbit]
  have hpdpt := hc.pdpt_entry _ hi
  have hpresent : present (k'.ram m.pdptFrame (pdptIndex v)) = true := by
    rw [hpdpt, present_tableEntry]
  have hnotlarge : entryFormat.large 2 (k'.ram m.pdptFrame (pdptIndex v)) = false := by
    show large _ = false
    rw [hpdpt, large_tableEntry, hlarge]
  have hframe : frameOf (k'.ram m.pdptFrame (pdptIndex v)) = m.dirFrame (pdptIndex v) := by
    rw [hpdpt, frameOf_tableEntry _ ((hc.dirPhys_eq _ hi).2.trans (by decide))]
  have habsent : present (k'.ram (m.dirFrame (pdptIndex v)) (pdeIndex v)) = false := by
    rw [hc.dir_zero _ hi]
    decide
  rw [walkPath, hv, walk_table hpml4 rfl,
    show entryFormat.frame (k'.ram m.pml4Frame 0) = m.pdptFrame from hpml4',
    walk_table hpresent hnotlarge,
    show entryFormat.frame (k'.ram m.pdptFrame (pdptIndex v)) = m.dirFrame (pdptIndex v)
      from hframe, walk_absent habsent]
  rfl

/-- A map made in clean memory is well formed. -/
theorem Created.wellFormed {k k' : KernelMem} {m : PageMap} (hc : Created k m k')
    (hstray : NoStray (k.ram m.pdptFrame)) : WellFormed k' m := by
  refine ⟨hc.inv.toShadows, hc.pml4_walk, fun i hi ↦ ?_⟩
  have hentry := (hc.userHalfClean_iff.mpr hstray).pdpt_eq i hi
  obtain ⟨hphys, hlt⟩ := hc.dirPhys_eq i hi
  have hblock := blockAddr_and_pageFrame (b := m.dirFrame i) (by omega)
  have hbits : ∀ f : U64, pageFrame &&& f = 0#64 →
      k'.ram m.pdptFrame i &&& f = userFlags &&& f := by
    intro f hf
    rw [hentry, hphys, BitVec.and_or_distrib_right, ← hblock, BitVec.and_assoc, hf,
      BitVec.and_zero, BitVec.zero_or]
  refine ⟨?_, ?_, ?_, ?_, ?_⟩
  · rw [present, hbits _ (by decide)]
    decide
  · rw [hbits _ (by decide)]
    decide
  · rw [hbits _ (by decide)]
    decide
  · rw [large, hbits _ (by decide)]
    decide
  · rw [hentry, hphys, frameOf_or (by decide), frameOf_blockAddr (by omega)]

/-- **Two address spaces, two histories of the same blocks.**  From two states that differ at most
in what the blocks hold, `create_page_map` returns the same map; and both user halves are clean,
and so the same, if and only if the block it takes for the PDPT held no stray bits in either. -/
theorem created_user_half_iff (phys : PhysOf) (mal : Malloc) (kernelPml4 : Nat → U64)
    {k₁ k₂ k₁' : KernelMem} {m : PageMap} {taken : List U64} (hk : KernelInv k₁)
    (hsame : SameAllocators k₁ k₂)
    (hcall : createPageMap phys mal kernelPml4 k₁ = .ok (m, taken, k₁')) :
    ∃ k₂', createPageMap phys mal kernelPml4 k₂ = .ok (m, taken, k₂') ∧
      ((UserHalfClean k₁' m ∧ UserHalfClean k₂' m ∧
          (∀ v, pml4Index v = 0 →
            (walk entryFormat k₁'.ram m.pml4Frame (walkPath v)).page entryFormat =
              (walk entryFormat k₂'.ram m.pml4Frame (walkPath v)).page entryFormat) ∧
          ∀ i < 512, k₁'.ram m.pdptFrame i = k₂'.ram m.pdptFrame i) ↔
        NoStray (k₁.ram m.pdptFrame) ∧ NoStray (k₂.ram m.pdptFrame)) := by
  obtain ⟨⟨_, _, k₂'⟩, hcall₂, rfl, rfl, -⟩ :=
    (createPageMap_agree phys mal kernelPml4 hsame).of_ok hcall
  have hk₂ : KernelInv k₂ := ⟨hsame.1 ▸ hk.hint, hsame.2 ▸ hk.heapInv⟩
  have h₁ := (createPageMap_spec hk hcall).2.userHalfClean_iff
  have h₂ := (createPageMap_spec hk₂ hcall₂).2.userHalfClean_iff
  refine ⟨k₂', hcall₂, ⟨fun h ↦ ⟨h₁.mp h.1, h₂.mp h.2.1⟩, fun h ↦ ?_⟩⟩
  have hc₁ := h₁.mpr h.1
  have hc₂ := h₂.mpr h.2
  refine ⟨hc₁, hc₂, fun v hv ↦ ?_, fun i hi ↦ ?_⟩
  · rw [hc₁.walk_none v hv, hc₂.walk_none v hv]
  · rw [hc₁.pdpt_eq i hi, hc₂.pdpt_eq i hi]

/-! ## A machine that can create a page map -/

/-- A `malloc` that has enough memory left. -/
def quietMalloc : Malloc := ⟨fun _ ↦ [], by simp⟩

theorem createDirs_supply (phys : PhysOf) {prior : Nat → U64} {n x : Nat} :
    ∀ {i : Nat} {k : KernelMem} {m : PageMap}, Building prior k m i → Supply k (x + n) →
      ∃ m' taken k', createDirs phys quietMalloc n i m k = .ok (m', taken, k') ∧ Supply k' x := by
  induction n with
  | zero => exact fun _ hs ↦ ⟨_, _, _, rfl, hs⟩
  | succ n ih =>
    intro i k m hb hs
    obtain ⟨dir, b, k₁, hpage, hfresh, hs₁⟩ := hs.mapFreshPage phys
    have hmal : mallocPages phys (quietMalloc.requests (i + 1)) k₁ = .ok k₁ := rfl
    have hdir := createDir_of_fresh hb.pdpt_ptr hpage hfresh hmal
    obtain ⟨m₂, taken₂, k₂, hr, hs₂⟩ := ih (hb.step hfresh hfresh.extends_refl) (hs₁.of_ram _)
    refine ⟨m₂, [blockAddr b] ++ taken₂, k₂, ?_, hs₂⟩
    simp only [createDirs, hdir, hr, Except.bind, bind, pure, Except.pure]

/-- Creating a page map takes 517 pages, if `malloc` takes none. -/
theorem createPageMap_supply (phys : PhysOf) (kernelPml4 : Nat → U64) {k : KernelMem} {x : Nat}
    (hs : Supply k (x + 517)) : ∃ m taken k',
      createPageMap phys quietMalloc kernelPml4 k = .ok (m, taken, k') ∧ Supply k' x := by
  obtain ⟨virt₁, b₁, k₁, h₁, hf₁, hs₁⟩ := hs.mapFreshPage phys
  obtain ⟨virt₂, b₂, k₂, h₂, hf₂, hs₂⟩ := hs₁.mapFreshPage phys
  obtain ⟨virt₃, b₃, k₃, h₃, hf₃, hs₃⟩ := hs₂.mapFreshPage phys
  obtain ⟨virt₄, b₄, k₄, h₄, hf₄, hs₄⟩ := hs₃.mapFreshPage phys
  obtain ⟨virt₅, b₅, k₅, h₅, hf₅, hs₅⟩ := hs₄.mapFreshPage phys
  have hmal : mallocPages phys (quietMalloc.requests 0) k = .ok k := rfl
  have hroot : createRoot phys quietMalloc kernelPml4 k =
      .ok (⟨virt₁, fun _ ↦ 0, fun _ ↦ 0, fun _ _ ↦ 0, virt₅, blockAddr b₁, blockAddr b₅⟩,
        [blockAddr b₁, blockAddr b₂, blockAddr b₃, blockAddr b₄, blockAddr b₅],
        { k₅ with ram := Function.update k₅.ram b₅ kernelPml4 }) := by
    simp only [createRoot, hmal, h₁, h₂, h₃, h₄, h₅, fillPage_eq hf₅.translate_eq, Except.bind,
      bind, pure, Except.pure]
  have hb := (createRoot_spec hs.toKernelInv hroot).2
  obtain ⟨m', taken', k', hdirs, hs'⟩ := createDirs_supply phys hb (hs₅.of_ram _)
  have hb' := (createDirs_spec hb hdirs).2.2
  have hstore := store_eq hb'.pml4_ptr 0
    (m'.pdptPhys ||| tablePresent ||| tableWriteable ||| pageUser)
  have hcall : createPageMap phys quietMalloc kernelPml4 k =
      .ok (m', [blockAddr b₁, blockAddr b₂, blockAddr b₃, blockAddr b₄, blockAddr b₅] ++ taken',
        { k' with
          ram := Function.update k'.ram m'.pml4Frame (Function.update (k'.ram m'.pml4Frame) 0
            (m'.pdptPhys ||| tablePresent ||| tableWriteable ||| pageUser)) }) := by
    simp only [createPageMap, hroot, hdirs, hstore, Except.bind, bind, pure, Except.pure]
  exact ⟨m', _, _, hcall, hs'.of_ram _⟩

/-- A machine with four megabytes, after boot. -/
def fourMegMem (ram : Nat → Nat → U64) : KernelMem :=
  ⟨boot [⟨0x100000, 0x400000⟩], KernelHeap.atInit, ram⟩

/-- Its blocks are those of the four megabytes. -/
theorem fourMegMem_freeBlocks (ram : Nat → Nat → U64) :
    (fourMegMem ram).blocks.freeBlocks = ↑(Finset.Ico 256 1280) := by
  have href := refines_boot (show ∀ r ∈ [(⟨0x100000, 0x400000⟩ : UsableRegion)], r.Inside by decide)
  refine href.freeBlocks_eq.trans ?_
  ext b
  simp only [Pool.available, pool, marked, UsableRegion.blocks, List.mem_singleton,
    exists_eq_left, Set.mem_ofPred_eq, Finset.notMem_empty, not_false_eq_true, and_true,
    Finset.coe_Ico, Set.mem_Ico]
  show 32 ≤ b ∧ b < 524480 ∧ 1048576 / 4096 ≤ b ∧
    b < 1048576 / 4096 + (4194304 + 4095) / 4096 ↔ _
  omega

theorem fourMegMem_supply (ram : Nat → Nat → U64) : Supply (fourMegMem ram) 1024 := by
  have href := refines_boot (show ∀ r ∈ [(⟨0x100000, 0x400000⟩ : UsableRegion)], r.Inside by decide)
  refine ⟨⟨href.toHintInv, heapInv_atInit⟩, ?_, ?_⟩
  · rw [fourMegMem_freeBlocks, Set.ncard_coe_finset, Nat.card_Ico]
  · have hfree : (fourMegMem ram).heap.freePages = ↑(Finset.range heapPages) := by
      ext p
      rw [Finset.coe_range]
      exact ⟨fun hp ↦ hp.1, fun hp ↦ ⟨hp, show present 0#64 = false by decide⟩⟩
    rw [hfree, Set.ncard_coe_finset, Finset.card_range]
    decide

theorem fourMegMem_same (ram ram' : Nat → Nat → U64) :
    SameAllocators (fourMegMem ram) (fourMegMem ram') := ⟨rfl, rfl⟩

/-- It can create a page map, and has 507 pages left. -/
theorem fourMegMem_create (ram : Nat → Nat → U64) : ∃ m taken k',
    createPageMap (fun _ ↦ 0#64) quietMalloc (fun _ ↦ 0#64) (fourMegMem ram) =
      .ok (m, taken, k') ∧ Supply k' 507 :=
  createPageMap_supply _ _ (fourMegMem_supply ram)

theorem created_user_half_iff_clear : ∃ m taken k' k'',
    createPageMap (fun _ ↦ 0#64) quietMalloc (fun _ ↦ 0#64) (fourMegMem fun _ _ ↦ 0#64) =
      .ok (m, taken, k') ∧
    createPageMap (fun _ ↦ 0#64) quietMalloc (fun _ ↦ 0#64) (fourMegMem fun _ _ ↦ 7#64) =
      .ok (m, taken, k'') ∧ UserHalfClean k' m ∧ UserHalfClean k'' m := by
  obtain ⟨m, taken, k', hcall, -⟩ := fourMegMem_create fun _ _ ↦ 0#64
  obtain ⟨k'', hcall', hiff⟩ := created_user_half_iff (fun _ ↦ 0#64) quietMalloc (fun _ ↦ 0#64)
    (fourMegMem_supply _).toKernelInv
    (fourMegMem_same _ fun _ _ ↦ 7#64) hcall
  obtain ⟨hc', hc'', -⟩ := hiff.mpr ⟨fun i _ ↦ show 0#64 &&& strayBits = 0#64 by decide,
    fun i _ ↦ show 7#64 &&& strayBits = 0#64 by decide⟩
  exact ⟨m, taken, k', k'', hcall, hcall', hc', hc''⟩

/-- **A page-size bit in a recycled block becomes a gigabyte of user memory.**  The same call, from
two states that differ in what the free blocks hold, gives one process no pages at all and lets the
hardware map the first gigabyte for the other. -/
theorem recycled_block_maps_gigabyte : ∃ m taken k' k'' e,
    createPageMap (fun _ ↦ 0#64) quietMalloc (fun _ ↦ 0#64) (fourMegMem fun _ _ ↦ 0#64) =
      .ok (m, taken, k') ∧
    createPageMap (fun _ ↦ 0#64) quietMalloc (fun _ ↦ 0#64) (fourMegMem fun _ _ ↦ pde2M) =
      .ok (m, taken, k'') ∧
    (walk entryFormat k'.ram m.pml4Frame (walkPath 0#64)).page entryFormat = none ∧
    (walk entryFormat k''.ram m.pml4Frame (walkPath 0#64)).page entryFormat = some (2, e) := by
  obtain ⟨m, taken, k', hcall, -⟩ := fourMegMem_create fun _ _ ↦ 0#64
  obtain ⟨⟨_, _, k''⟩, hcall', rfl, rfl, -⟩ :=
    (createPageMap_agree (fun _ ↦ 0#64) quietMalloc (fun _ ↦ 0#64)
      (fourMegMem_same _ fun _ _ ↦ pde2M)).of_ok hcall
  have hc := (createPageMap_spec (fourMegMem_supply _).toKernelInv hcall).2
  have hc' := (createPageMap_spec (fourMegMem_supply _).toKernelInv hcall').2
  have hclean := hc.userHalfClean_iff.mpr fun i _ ↦ show 0#64 &&& strayBits = 0#64 by decide
  refine ⟨m, taken, k', k'', tableEntry pde2M (m.dirFrame 0), hcall, hcall',
    hclean.walk_none 0#64 (by decide), ?_⟩
  have hentry : k''.ram m.pdptFrame 0 = tableEntry pde2M (m.dirFrame 0) :=
    hc'.pdpt_entry 0 (by decide)
  have hlarge : entryFormat.large 2 (k''.ram m.pdptFrame 0) = true := by
    show large _ = true
    rw [hentry, large_tableEntry]
    decide
  obtain ⟨hpml4, hframe⟩ := hc'.pml4_walk
  rw [show walkPath 0#64 = [0, 0, 0, 0] by decide, walk_table hpml4 rfl,
    show entryFormat.frame (k''.ram m.pml4Frame 0) = m.pdptFrame from hframe,
    walk_large (by rw [hentry]; exact present_tableEntry _ _) hlarge, hentry]
  rfl

/-! ## Runs -/

/-- The runs of one page map: its creation, then any calls of `map_virtual_memory_4k` that return.
The last argument lists the blocks these took for it themselves. -/
inductive MapReaches (phys : PhysOf) (mal : Malloc) (kernelPml4 : Nat → U64) (k₀ : KernelMem) :
    KernelMem → PageMap → List U64 → Prop
  | create {k : KernelMem} {m : PageMap} {taken : List U64}
      (hcall : createPageMap phys mal kernelPml4 k₀ = .ok (m, taken, k)) :
      MapReaches phys mal kernelPml4 k₀ k m taken
  | map {k k' : KernelMem} {m m' : PageMap} {taken taken' : List U64} {flags frame virt : U64}
      {amount : Nat} (hr : MapReaches phys mal kernelPml4 k₀ k m taken)
      (hcall : mapVirtualMemory4k phys flags amount frame virt m k = .ok (m', taken', k')) :
      MapReaches phys mal kernelPml4 k₀ k' m' (taken ++ taken')

theorem Step.mono {k k' : KernelMem} {m m' : PageMap} {c c' : Set Nat} {taken : List U64}
    (h : Step k m c taken k' m') (hc : c ⊆ c') : Step k m c' taken k' m' :=
  { h with same := fun p hp hnot ↦ h.same p hp fun hpc ↦ hnot (hc hpc) }

/-- Every call that returns is made of steps, wherever it maps. -/
theorem MapInv.step_of_ok {phys : PhysOf} {flags : U64} {n : Nat} :
    ∀ {frame virt : U64} {k k' : KernelMem} {m m' : PageMap} {taken : List U64}, MapInv k m →
      PageMap.mapVirtualMemory4k phys flags n frame virt m k = .ok (m', taken, k') →
      Step k m Set.univ taken k' m' := by
  induction n with
  | zero =>
    intro frame virt k k' m m' taken hm hcall
    cases hcall
    exact (Step.refl hm).mono (Set.subset_univ _)
  | succ n ih =>
    intro frame virt k k' m m' taken hm hcall
    rw [PageMap.mapVirtualMemory4k] at hcall
    obtain ⟨⟨m₁, taken₁, k₁⟩, hpage, hcall⟩ := bind_eq_ok.mp hcall
    obtain ⟨⟨m₂, taken₂, k₂⟩, hpages, hcall⟩ := bind_eq_ok.mp hcall
    cases hcall
    have hpml4 : pml4Index virt = 0 := by
      by_contra hne
      rw [PageMap.mapPage, if_pos (.inr hne)] at hpage
      cases hpage
    rcases hm.mapPage phys flags frame hpml4 with ⟨m₁', taken₁', k₁', hcall', hstep, -⟩ | ⟨e, he, -⟩
    · rw [hcall'] at hpage
      cases hpage
      exact (hstep.trans (ih hstep.inv hpages)).mono (Set.subset_univ _)
    · rw [he] at hpage
      cases hpage

/-- **What every run keeps**: the map is well formed, and has no more tables than blocks were taken
for tables. -/
structure RunInv (k : KernelMem) (m : PageMap) (taken : List U64) : Prop extends MapInv k m where
  pdpt_ptr : k.heap.translate m.pdpt = some m.pdptFrame
  taken_length : m.tables.card + 517 ≤ taken.length

theorem Created.runInv {k k' : KernelMem} {m : PageMap} {taken : List U64} (hc : Created k m k')
    (hlen : taken.length = 517) : RunInv k' m taken := by
  have hnone : m.tables = ∅ := by
    refine Finset.eq_empty_of_forall_notMem fun x hx ↦ ?_
    rw [mem_tables] at hx
    exact hx.2 (hc.no_tables x.1 x.2)
  exact ⟨hc.inv, hc.pdpt_ptr, by rw [hnone, Finset.card_empty]; omega⟩

theorem mapReaches_runInv {phys : PhysOf} {mal : Malloc} {kernelPml4 : Nat → U64}
    {k₀ k : KernelMem} {m : PageMap} {taken : List U64} (hk : KernelInv k₀)
    (hr : MapReaches phys mal kernelPml4 k₀ k m taken) : RunInv k m taken := by
  induction hr with
  | create hcall =>
    obtain ⟨hlen, hc⟩ := createPageMap_spec hk hcall
    exact hc.runInv hlen
  | @map k k' m m' taken taken' flags frame virt amount _ hcall ih =>
    have hstep := ih.step_of_ok hcall
    have hlen := ih.taken_length
    have hcard := hstep.card_tables
    refine ⟨hstep.inv, ?_, by rw [List.length_append]; omega⟩
    rw [hstep.pdpt_eq, pdptFrame, hstep.pdptPhys_eq]
    exact hstep.ext.translate_mono _ _ ih.pdpt_ptr

/-! ## Tearing a map down -/

theorem load_ok {k : KernelMem} {virt : U64} {i : Nat} {e : U64} (h : k.load virt i = .ok e) :
    ∃ f, k.heap.translate virt = some f ∧ e = k.ram f i := by
  rw [load] at h
  split at h
  · cases h
  next f hf =>
  cases h
  exact ⟨f, hf, rfl⟩

theorem store_ok {k k' : KernelMem} {virt : U64} {i : Nat} {word : U64}
    (h : k.store virt i word = .ok k') : ∃ f, k.heap.translate virt = some f ∧
      k' = { k with ram := Function.update k.ram f (Function.update (k.ram f) i word) } := by
  rw [store] at h
  split at h
  · cases h
  next f hf =>
  cases h
  exact ⟨f, hf, rfl⟩

/-- Freeing heap pages makes no address translate to anything new. -/
theorem translate_of_free {h : KernelHeap} {n : Nat} {addr virt : U64} {f : Nat}
    (hf : (kernelFree4kPages n addr h).translate virt = some f) : h.translate virt = some f := by
  obtain ⟨hdir, hclear, hrest⟩ := kernelFree4kPages_spec n addr h
  obtain ⟨h1, h2, h3, h4, h5, h6⟩ := translate_eq_some.mp hf
  have hnot : ∀ j < n, heapIndex virt ≠ heapIndex (pageAt addr j) := by
    intro j hj heq
    rw [heq, hclear j hj] at h5
    exact absurd h5 (by decide)
  rw [hdir] at h3 h4
  rw [hrest _ hnot] at h5 h6
  exact translate_eq_some.mpr ⟨h1, h2, h3, h4, h5, h6⟩

theorem releasePages_frame {addr : U64} {n : Nat} : ∀ {i : Nat} {k k' : KernelMem}
    {given : List U64}, releasePages addr n i k = .ok (given, k') →
      k'.heap = k.heap ∧ k'.ram = k.ram := by
  induction n with
  | zero =>
    intro i k k' given hcall
    cases hcall
    exact ⟨rfl, rfl⟩
  | succ n ih =>
    intro i k k' given hcall
    rw [releasePages] at hcall
    split at hcall
    · cases hcall
    next blocks hfree =>
    split at hcall
    · cases hcall
    next given' k'' hrest =>
    cases hcall
    have hframe := ih hrest
    exact hframe

/-- `free` makes no address translate to anything new either, and leaves the tables alone. -/
theorem freeChunks_frame {xs : List (U64 × Nat)} : ∀ {k k' : KernelMem},
    freeChunks xs k = .ok k' →
      (∀ virt f, k'.heap.translate virt = some f → k.heap.translate virt = some f) ∧
        k'.ram = k.ram := by
  induction xs with
  | nil =>
    intro k k' hcall
    cases hcall
    exact ⟨fun _ _ h ↦ h, rfl⟩
  | cons x xs ih =>
    intro k k' hcall
    rw [freeChunks] at hcall
    obtain ⟨⟨given, k₁⟩, hfree, hrest⟩ := bind_eq_ok.mp hcall
    rw [liballocFree] at hfree
    split at hfree
    · cases hfree
    next given' k₂ hrelease =>
    cases hfree
    obtain ⟨hheap, hram⟩ := releasePages_frame hrelease
    obtain ⟨htr, hram'⟩ := ih hrest
    refine ⟨fun virt f hf ↦ ?_, hram'.trans hram⟩
    have hfree := translate_of_free (htr virt f hf)
    rwa [hheap] at hfree

/-- `destroy_page_map` is about to look at entry `j` of directory `i` of a map that was in `k₀` when
it began: what still translates, translates as it did, and the entries it has not looked at are as
they were. -/
structure Dying (k₀ : KernelMem) (m : PageMap) (k : KernelMem) (i j : Nat) : Prop where
  reflects : ∀ virt f, k.heap.translate virt = some f → k₀.heap.translate virt = some f
  rest : ∀ d < 512, ∀ l, i < d ∨ d = i ∧ j ≤ l → k.ram (m.dirFrame d) l = k₀.ram (m.dirFrame d) l

/-- Storing to an entry that has been looked at. -/
theorem Dying.store {k₀ k k' : KernelMem} {m : PageMap} {i j : Nat} (hm : MapInv k₀ m)
    (hi : i < 512) (hd : Dying k₀ m k i j) (hstore : k.store (m.pageDirs i) j 0#64 = .ok k') :
    Dying k₀ m k' i (j + 1) := by
  obtain ⟨f, hf, rfl⟩ := store_ok hstore
  have hf₀ := hd.reflects _ _ hf
  rw [hm.dir_ptr i hi] at hf₀
  cases hf₀
  refine ⟨hd.reflects, fun d hd' l hl ↦ ?_⟩
  show Function.update k.ram (m.dirFrame i) _ (m.dirFrame d) l = _
  rw [← hd.rest d hd' l (by omega)]
  by_cases hdi : m.dirFrame d = m.dirFrame i
  · have hdi' := Node.dir.inj (hm.distinct (.dir d) (.dir i) hd' hi hdi)
    rw [hdi, Function.update_self, Function.update_of_ne (by omega)]
  · rw [Function.update_of_ne hdi]

/-- The loop over one directory frees no more blocks than the directory has tables. -/
theorem destroyTables_spec {k₀ : KernelMem} {m : PageMap} (hm : MapInv k₀ m) {i : Nat}
    (hi : i < 512) {n : Nat} : ∀ {j : Nat} {k k' : KernelMem} {given : List U64},
      j + n = 512 → Dying k₀ m k i j → destroyTables m i n j k = .ok (given, k') →
      Dying k₀ m k' i 512 ∧ ∃ idx : List Nat, idx.Nodup ∧ given.length = idx.length ∧
        ∀ l ∈ idx, j ≤ l ∧ (i, l) ∈ m.tables := by
  induction n with
  | zero =>
    intro j k k' given hj hd hcall
    cases hcall
    obtain rfl : j = 512 := hj
    exact ⟨hd, [], List.nodup_nil, rfl, by simp⟩
  | succ n ih =>
    intro j k k' given hj hd hcall
    rw [destroyTables] at hcall
    obtain ⟨e, hload, hcall⟩ := bind_eq_ok.mp hcall
    obtain ⟨f, hf, he⟩ := load_ok hload
    have hf₀ := hd.reflects _ _ hf
    rw [hm.dir_ptr i hi] at hf₀
    cases hf₀
    rw [hd.rest i hi j (by omega)] at he
    -- whatever the rest frees, it frees for later entries
    have hlater : ∀ {given : List U64}, (∃ idx : List Nat, idx.Nodup ∧ given.length = idx.length ∧
        ∀ l ∈ idx, j + 1 ≤ l ∧ (i, l) ∈ m.tables) → ∃ idx : List Nat, idx.Nodup ∧
          given.length = idx.length ∧ ∀ l ∈ idx, j ≤ l ∧ (i, l) ∈ m.tables := by
      rintro given ⟨idx, hnodup, hlen, hidx⟩
      exact ⟨idx, hnodup, hlen, fun l hl ↦ ⟨by have := (hidx l hl).1; omega, (hidx l hl).2⟩⟩
    split at hcall
    · next hp =>
      have htable : (i, j) ∈ m.tables := by
        rw [mem_tables]
        rw [he] at hp
        exact ⟨⟨hi, by show j < 512; omega⟩, (hm.present_iff i hi j (by omega)).mp hp⟩
      dsimp only at hcall
      split at hcall
      · have hd' : Dying k₀ m k i (j + 1) :=
          ⟨hd.reflects, fun d hd' l hl ↦ hd.rest d hd' l (by omega)⟩
        obtain ⟨hend, hidx⟩ := ih (by omega) hd' hcall
        exact ⟨hend, hlater hidx⟩
      · obtain ⟨blocks, hfree, hcall⟩ := bind_eq_ok.mp hcall
        obtain ⟨k₁, hstore, hcall⟩ := bind_eq_ok.mp hcall
        obtain ⟨⟨given', k₂⟩, hrest, hcall⟩ := bind_eq_ok.mp hcall
        cases hcall
        have hd₀ : Dying k₀ m { k with
            blocks := blocks
            heap := kernelFree4kPages 1 (m.pageTables i j) k.heap } i j :=
          ⟨fun virt f hf ↦ hd.reflects _ _ (translate_of_free hf), hd.rest⟩
        obtain ⟨hend, idx, hnodup, hlen, hidx⟩ := ih (by omega) (hd₀.store hm hi hstore) hrest
        refine ⟨hend, j :: idx, List.nodup_cons.mpr ⟨fun hmem ↦ ?_, hnodup⟩, by simp [hlen], ?_⟩
        · have := (hidx j hmem).1
          omega
        · intro l hl
          rcases List.mem_cons.mp hl with rfl | hl
          · exact ⟨le_rfl, htable⟩
          · exact ⟨by have := (hidx l hl).1; omega, (hidx l hl).2⟩
    · obtain ⟨k₁, hstore, hcall⟩ := bind_eq_ok.mp hcall
      obtain ⟨hend, hidx⟩ := ih (by omega) (hd.store hm hi hstore) hcall
      exact ⟨hend, hlater hidx⟩

/-- One directory: as many blocks as it has tables, and its own. -/
theorem destroyDir_spec {k₀ : KernelMem} {m : PageMap} (hm : MapInv k₀ m)
    (hptr : k₀.heap.translate m.pdpt = some m.pdptFrame) {chunks : Nat → List (U64 × Nat)}
    {i : Nat} (hi : i < 512) {k k' : KernelMem} {given : List U64} (hd : Dying k₀ m k i 0)
    (hcall : destroyDir chunks m i k = .ok (given, k')) :
    Dying k₀ m k' (i + 1) 0 ∧ ∃ idx : List Nat, idx.Nodup ∧ given.length ≤ idx.length + 1 ∧
      ∀ l ∈ idx, (i, l) ∈ m.tables := by
  have hskip : Dying k₀ m k (i + 1) 0 :=
    ⟨hd.reflects, fun d hd' l hl ↦ hd.rest d hd' l (by omega)⟩
  rw [destroyDir] at hcall
  split at hcall
  · cases hcall
    exact ⟨hskip, [], List.nodup_nil, by simp, by simp⟩
  split at hcall
  · cases hcall
    exact ⟨hskip, [], List.nodup_nil, by simp, by simp⟩
  obtain ⟨⟨given₁, k₁⟩, htables, hcall⟩ := bind_eq_ok.mp hcall
  obtain ⟨k₂, hfree, hcall⟩ := bind_eq_ok.mp hcall
  obtain ⟨k₃, hstore, hcall⟩ := bind_eq_ok.mp hcall
  obtain ⟨blocks, -, hcall⟩ := bind_eq_ok.mp hcall
  cases hcall
  obtain ⟨hd₁, idx, hnodup, hlen, hidx⟩ := destroyTables_spec hm hi (Nat.zero_add 512) hd htables
  obtain ⟨htr, hram⟩ := freeChunks_frame hfree
  obtain ⟨f, hf, rfl⟩ := store_ok hstore
  have hf₀ := hd₁.reflects _ _ (htr _ _ hf)
  rw [hptr] at hf₀
  cases hf₀
  refine ⟨⟨fun virt f hf ↦ ?_, fun d hd' l hl ↦ ?_⟩, idx, hnodup, ?_, fun l hl ↦ (hidx l hl).2⟩
  · exact hd₁.reflects _ _ (htr _ _ (translate_of_free hf))
  · have hne : m.dirFrame d ≠ m.pdptFrame := by
      intro heq
      cases hm.distinct (.dir d) .pdpt hd' trivial heq
    show Function.update k₂.ram m.pdptFrame _ (m.dirFrame d) l = _
    rw [Function.update_of_ne hne, hram]
    exact hd₁.rest d hd' l (by omega)
  · rw [List.length_append, hlen]
    exact le_rfl

theorem destroyDirs_spec {k₀ : KernelMem} {m : PageMap} (hm : MapInv k₀ m)
    (hptr : k₀.heap.translate m.pdpt = some m.pdptFrame) {chunks : Nat → List (U64 × Nat)}
    {n : Nat} : ∀ {i : Nat} {k k' : KernelMem} {given : List U64}, i + n = 512 →
      Dying k₀ m k i 0 → destroyDirs chunks m n i k = .ok (given, k') →
      ∃ pairs : List (Nat × Nat), pairs.Nodup ∧ given.length ≤ pairs.length + n ∧
        ∀ x ∈ pairs, i ≤ x.1 ∧ x ∈ m.tables := by
  induction n with
  | zero =>
    intro i k k' given _ _ hcall
    cases hcall
    exact ⟨[], List.nodup_nil, by simp, by simp⟩
  | succ n ih =>
    intro i k k' given hi hd hcall
    rw [destroyDirs] at hcall
    obtain ⟨⟨given₁, k₁⟩, hdir, hcall⟩ := bind_eq_ok.mp hcall
    obtain ⟨⟨given₂, k₂⟩, hdirs, hcall⟩ := bind_eq_ok.mp hcall
    cases hcall
    obtain ⟨hd₁, idx, hnodup, hlen, hidx⟩ := destroyDir_spec hm hptr (by omega) hd hdir
    obtain ⟨pairs, hnodup', hlen', hpairs⟩ := ih (by omega) hd₁ hdirs
    refine ⟨idx.map (Prod.mk i) ++ pairs, ?_, ?_, ?_⟩
    · refine List.nodup_append.mpr ⟨hnodup.map (Prod.mk_right_injective i), hnodup', ?_⟩
      intro x hx y hy heq
      obtain ⟨l, -, rfl⟩ := List.mem_map.mp hx
      have hle := (hpairs y hy).1
      rw [← heq] at hle
      exact absurd hle (Nat.not_succ_le_self i)
    · rw [List.length_append, List.length_append, List.length_map]
      omega
    · intro x hx
      rcases List.mem_append.mp hx with hx | hx
      · obtain ⟨l, hl, rfl⟩ := List.mem_map.mp hx
        exact ⟨le_rfl, hidx l hl⟩
      · exact ⟨by have := (hpairs x hx).1; omega, (hpairs x hx).2⟩

/-- **It frees too little**: at most one block for each table, one for each directory, and the
PDPT's. -/
theorem destroyPageMap_length {k k' : KernelMem} {m : PageMap} (hm : MapInv k m)
    (hptr : k.heap.translate m.pdpt = some m.pdptFrame) {chunks : Nat → List (U64 × Nat)}
    {given : List U64} (hcall : destroyPageMap chunks m k = .ok (given, k')) :
    given.length ≤ m.tables.card + 513 := by
  rw [destroyPageMap] at hcall
  obtain ⟨⟨given₁, k₁⟩, hdirs, hcall⟩ := bind_eq_ok.mp hcall
  obtain ⟨blocks, -, hcall⟩ := bind_eq_ok.mp hcall
  cases hcall
  obtain ⟨pairs, hnodup, hlen, hpairs⟩ := destroyDirs_spec hm hptr (Nat.zero_add 512)
    ⟨fun _ _ h ↦ h, fun _ _ _ _ ↦ rfl⟩ hdirs
  have hsub : pairs.toFinset ⊆ m.tables := fun x hx ↦ (hpairs x (List.mem_toFinset.mp hx)).2
  have hcard := Finset.card_le_card hsub
  rw [List.toFinset_card_of_nodup hnodup] at hcard
  rw [List.length_append, List.length_singleton]
  omega

/-- The block an address is in. -/
def blockOf (addr : U64) : Nat := (addr >>> 12).toNat

/-- **`destroy_page_map` never undoes the run.**  Whatever was mapped, it passes at least four
addresses fewer to `free_physical_block` than the run took blocks; so the blocks it frees are not,
each once, the blocks that were taken. -/
theorem destroy_not_inverse {phys : PhysOf} {mal : Malloc} {kernelPml4 : Nat → U64}
    {k₀ k : KernelMem} {m : PageMap} {taken : List U64} (hk : KernelInv k₀)
    (hr : MapReaches phys mal kernelPml4 k₀ k m taken) (chunks : Nat → List (U64 × Nat)) :
    (∀ given k', destroyPageMap chunks m k = .ok (given, k') →
        given.length + 4 ≤ taken.length) ∧
      ¬∃ given k', destroyPageMap chunks m k = .ok (given, k') ∧
        (given.map blockOf).Perm (taken.map blockOf) := by
  have hrun := mapReaches_runInv hk hr
  have htaken := hrun.taken_length
  have hlen : ∀ given k', destroyPageMap chunks m k = .ok (given, k') →
      given.length + 4 ≤ taken.length := by
    intro given k' hcall
    have hle := destroyPageMap_length hrun.toMapInv hrun.pdpt_ptr hcall
    omega
  refine ⟨hlen, ?_⟩
  rintro ⟨given, k', hcall, hperm⟩
  have hle := hlen given k' hcall
  have heq := hperm.length_eq
  rw [List.length_map, List.length_map] at heq
  omega

theorem destroy_not_inverse_four_megabytes : ∃ m taken k,
    MapReaches (fun _ ↦ 0#64) quietMalloc (fun _ ↦ 0#64) (fourMegMem fun _ _ ↦ 0#64) k m taken ∧
      ¬∃ given k', destroyPageMap (fun _ ↦ []) m k = .ok (given, k') ∧
        (given.map blockOf).Perm (taken.map blockOf) := by
  obtain ⟨m, taken, k, hcall, -⟩ := fourMegMem_create fun _ _ ↦ 0#64
  have hr := MapReaches.create hcall
  exact ⟨m, taken, k, hr,
    (destroy_not_inverse (fourMegMem_supply _).toKernelInv hr fun _ ↦ []).2⟩

/-- On a machine with four megabytes a new map takes 517 blocks, and destroying it right away frees
513 at most. -/
theorem destroy_forgets_blocks : ∃ m taken k,
    createPageMap (fun _ ↦ 0#64) quietMalloc (fun _ ↦ 0#64) (fourMegMem fun _ _ ↦ 0#64) =
      .ok (m, taken, k) ∧ taken.length = 517 ∧
    (∀ given k', destroyPageMap (fun _ ↦ []) m k = .ok (given, k') → given.length ≤ 513) ∧
    ¬∃ given k', destroyPageMap (fun _ ↦ []) m k = .ok (given, k') ∧
      (given.map blockOf).Perm (taken.map blockOf) := by
  obtain ⟨m, taken, k, hcall, -⟩ := fourMegMem_create fun _ _ ↦ 0#64
  obtain ⟨hlen, hc⟩ := createPageMap_spec (fourMegMem_supply _).toKernelInv hcall
  have hrun := hc.runInv hlen
  have htables := hrun.taken_length
  have hgiven : ∀ given k', destroyPageMap (fun _ ↦ []) m k = .ok (given, k') →
      given.length ≤ 513 := by
    intro given k' hdestroy
    have hle := destroyPageMap_length hrun.toMapInv hrun.pdpt_ptr hdestroy
    omega
  refine ⟨m, taken, k, hcall, hlen, hgiven, ?_⟩
  rintro ⟨given, k', hdestroy, hperm⟩
  have hle := hgiven given k' hdestroy
  have heq := hperm.length_eq
  rw [List.length_map, List.length_map] at heq
  omega

end PageMap
end Borrrdex
