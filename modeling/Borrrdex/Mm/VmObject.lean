import Borrrdex.Memory.TableSupply
import Borrrdex.Mm.AddressSpace

/-!
# Objects of virtual memory

A `vm_object` is what a region maps: anonymous memory, the image of a program, or the frame buffer.
`map_allocated_blocks` is its one operation an address space needs, and `mapBlocks` is the loop
that two of its three versions share: an entry for each page, one after the other.

An object is known by a number, in the order the objects were made in.  Reference counts are left
out.
-/

set_option autoImplicit false

namespace Borrrdex

open PageMap KernelMem

/-- The classes derived from `vm_object`. -/
inductive VmKind
  /-- `physical_vm_object`. -/
  | physical
  /-- `process_image_vm_object`, with `_base` and `_write`. -/
  | processImage (base : U64) (write : Bool)
  /-- `framebuffer_vmo`, at the physical address of the video mode. -/
  | framebuffer (physicalAddress : U64)

/-- `vm_object`, with the members of the derived classes. -/
structure VmObject where
  /-- `_size`. -/
  size : U64
  /-- `_use_count`. -/
  useCount : U32
  /-- `_anonymous`. -/
  isAnonymous : Bool
  /-- `_cow`. -/
  cow : Bool
  /-- The memory at `_physical_blocks`, also behind the end of the array. -/
  physicalBlocks : Nat → U32
  /-- Its class. -/
  kind : VmKind

/-- What the objects of one address space live in. -/
structure VmState where
  /-- The kernel's memory. -/
  mem : KernelMem
  /-- The page map of the address space. -/
  map : PageMap
  /-- The objects. -/
  objects : Nat → VmObject
  /-- The number of the next object. -/
  next : Nat

/-- `PAGE_COUNT_4K`, which returns 32 bits. -/
def pageCount4K (size : U64) : U32 := ((size + 0xFFF#64) >>> 12).setWidth 32

/-- A loop of `map_allocated_blocks`: `n` pages are left, page `i` is next and goes to `virt`.
`entry` gives the flags and the frame of each page.  The source counts in 32 bits, but long before
that is not enough the address is not a user address any more. -/
def mapBlocks (phys : PhysOf) (entry : Nat → Except Halt (U64 × U64)) : Nat → Nat → U64 → PageMap →
    KernelMem → Except Halt (PageMap × KernelMem)
  | 0, _, _, m, k => .ok (m, k)
  | n + 1, i, virt, m, k => do
    let (flags, frame) ← entry i
    let (m, _, k) ← mapVirtualMemory4k phys flags 1 frame virt m k
    mapBlocks phys entry n (i + 1) (virt + 0x1000#64) m k

namespace VmObject

/-- The address of block `i` of an object. -/
def blockOf (obj : VmObject) (i : Nat) : U64 := (obj.physicalBlocks i).setWidth 64 <<< 12

/-- The entries of `physical_vm_object::map_allocated_blocks`. -/
def physicalEntry (obj : VmObject) (i : Nat) : Except Halt (U64 × U64) :=
  if obj.physicalBlocks i ≠ 0#32 then
    .ok (pageUser ||| tablePresent ||| (if obj.cow then 0#64 else tableWriteable), obj.blockOf i)
  else .ok (pageUser, 0#64)

/-- The entries of `process_image_vm_object::map_allocated_blocks`. -/
def imageEntry (obj : VmObject) (write : Bool) (i : Nat) : Except Halt (U64 × U64) :=
  if obj.physicalBlocks i = 0#32 then .error .imageWithoutBlock
  else
    .ok (pageUser ||| tablePresent ||| (if write && !obj.cow then tableWriteable else 0#64),
      obj.blockOf i)

/-- `map_allocated_blocks`. -/
def mapAllocatedBlocks (phys : PhysOf) (obj : VmObject) (base : U64) (m : PageMap)
    (k : KernelMem) : Except Halt (PageMap × KernelMem) :=
  match obj.kind with
  | .physical => mapBlocks phys obj.physicalEntry (obj.size >>> 12).toNat 0 base m k
  | .processImage imageBase write =>
    if base ≠ imageBase then .error .imageMoved
    else mapBlocks phys (obj.imageEntry write) (obj.size >>> 12).toNat 0 imageBase m k
  | .framebuffer physicalAddress => do
    let (m, _, k) ← mapVirtualMemory4k phys (tablePresent ||| tableWriteable ||| pageUser)
      (obj.size >>> 12).toNat physicalAddress base m k
    return (m, k)

/-- What `physical_vm_object(size, true, false, false)` makes of the memory it gets, which held
`garbage`: the blocks are cleared, as many as `PAGE_COUNT_4K` says, and `_use_count` is not. -/
def anonymous (size : U64) (garbage : VmObject) : VmObject where
  size := size
  useCount := garbage.useCount
  isAnonymous := true
  cow := false
  physicalBlocks := fun i ↦
    if i < (pageCount4K size).toNat then 0#32 else garbage.physicalBlocks i
  kind := .physical

end VmObject

/-- An object with nothing in it. -/
def emptyObject : VmObject := ⟨0#64, 0#32, true, false, fun _ ↦ 0#32, .physical⟩

/-- The operations of `vm_object`.  The three calls of `malloc` are for an object, for its blocks
and for its reference count. -/
def vmOps (phys : PhysOf) (mal : Malloc) (garbage : VmObject) : VmOps VmState Nat where
  size := fun s obj ↦ (s.objects obj).size
  addUse := fun obj s ↦
    { s with
      objects := Function.update s.objects obj
        { s.objects obj with useCount := (s.objects obj).useCount + 1 } }
  mapAllocatedBlocks := fun obj base s ↦ do
    let (map, mem) ← (s.objects obj).mapAllocatedBlocks phys base s.map s.mem
    return { s with map := map, mem := mem }
  newAnonymous := fun size s ↦ do
    let mem ← mallocPages phys (mal.requests 0 ++ mal.requests 1 ++ mal.requests 2) s.mem
    return (s.next,
      { s with
        mem := mem
        objects := Function.update s.objects s.next (VmObject.anonymous size garbage)
        next := s.next + 1 })

/-! ## Which addresses can be mapped -/

/-- The `n` bytes from `b` on select user pages only.  The test of `map_virtual_memory_4k` looks at
nine bits of the address, so addresses that differ by a multiple of 2^48 are one to it. -/
def UserRange (b n : Nat) : Prop := b % 2 ^ 48 + n ≤ 2 ^ 39

theorem pml4Index_pageAt (virt : U64) (t : Nat) :
    pml4Index (pageAt virt t) = (virt.toNat + 4096 * t) % 2 ^ 64 / 2 ^ 39 % 512 := by
  rw [pml4Index_eq, toNat_pageAt]

/-- Pages that all pass the test are a range of user pages. -/
theorem userRange_of_pml4Index {virt : U64} {n : Nat} (hn : 0 < n) (hvirt : virt.toNat % 4096 = 0)
    (h : ∀ t < n, pml4Index (pageAt virt t) = 0) : UserRange virt.toNat (4096 * n) := by
  rw [UserRange]
  have hfirst := h 0 hn
  rw [pml4Index_pageAt] at hfirst
  by_contra hlong
  -- the first page behind the user half is among them
  have hlast := h ((2 ^ 39 - virt.toNat % 2 ^ 48) / 4096) (by omega)
  rw [pml4Index_pageAt] at hlast
  omega

theorem UserRange.pml4Index_eq {virt : U64} {n : Nat}
    (h : UserRange virt.toNat (4096 * (n + 1))) : pml4Index virt = 0 := by
  rw [UserRange] at h
  rw [Borrrdex.pml4Index_eq]
  omega

/-- The next page of a range of user pages. -/
theorem UserRange.next {virt : U64} {n : Nat} (h : UserRange virt.toNat (4096 * (n + 1))) :
    UserRange (virt + 0x1000#64).toNat (4096 * n) ∧
      (0 < n → pageNumber (virt + 0x1000#64) = pageNumber virt + 1) := by
  rw [UserRange] at h ⊢
  have hvirt := virt.isLt
  have hnext : (virt + 0x1000#64).toNat = virt.toNat + 4096 := by
    rw [BitVec.toNat_add, BitVec.toNat_ofNat]
    omega
  rw [pageNumber, pageNumber, hnext]
  omega

/-! ## What `map_allocated_blocks` does -/

/-- Every page of a call that returns passes the test. -/
theorem mapVirtualMemory4k_pml4Index {phys : PhysOf} {flags : U64} {n : Nat} :
    ∀ {frame virt : U64} {m m' : PageMap} {k k' : KernelMem} {taken : List U64},
      mapVirtualMemory4k phys flags n frame virt m k = .ok (m', taken, k') →
      ∀ t < n, pml4Index (pageAt virt t) = 0 := by
  induction n with
  | zero => exact fun _ t ht ↦ absurd ht (Nat.not_lt_zero t)
  | succ n ih =>
    intro frame virt m m' k k' taken hcall t ht
    rw [PageMap.mapVirtualMemory4k] at hcall
    obtain ⟨⟨m₁, taken₁, k₁⟩, hpage, hcall⟩ := bind_eq_ok.mp hcall
    obtain ⟨⟨m₂, taken₂, k₂⟩, hpages, -⟩ := bind_eq_ok.mp hcall
    cases t with
    | zero =>
      by_contra hne
      rw [pageAt_zero] at hne
      rw [PageMap.mapPage, if_pos (.inr hne)] at hpage
      cases hpage
    | succ t =>
      rw [pageAt_succ]
      exact ih hpages t (by omega)

/-- **A loop that returns** keeps the invariant, and every page of it passes the test. -/
theorem mapBlocks_ok {phys : PhysOf} {entry : Nat → Except Halt (U64 × U64)} {n : Nat} :
    ∀ {i : Nat} {virt : U64} {m m' : PageMap} {k k' : KernelMem}, MapInv k m →
      mapBlocks phys entry n i virt m k = .ok (m', k') →
      MapInv k' m' ∧ ∀ t < n, pml4Index (pageAt virt t) = 0 := by
  induction n with
  | zero =>
    intro i virt m m' k k' hm hcall
    cases hcall
    exact ⟨hm, fun t ht ↦ absurd ht (Nat.not_lt_zero t)⟩
  | succ n ih =>
    intro i virt m m' k k' hm hcall
    rw [mapBlocks] at hcall
    obtain ⟨⟨flags, frame⟩, -, hcall⟩ := bind_eq_ok.mp hcall
    obtain ⟨⟨m₁, taken, k₁⟩, hpage, hcall⟩ := bind_eq_ok.mp hcall
    obtain ⟨hinv, hrest⟩ := ih (hm.step_of_ok hpage).inv hcall
    refine ⟨hinv, fun t ht ↦ ?_⟩
    cases t with
    | zero => exact mapVirtualMemory4k_pml4Index hpage 0 Nat.zero_lt_one
    | succ t =>
      rw [pageAt_succ]
      exact hrest t (by omega)

/-- One page is one turn of the loop of `map_virtual_memory_4k`. -/
theorem mapVirtualMemory4k_one (phys : PhysOf) (flags frame virt : U64) (m : PageMap)
    (k : KernelMem) :
    mapVirtualMemory4k phys flags 1 frame virt m k = mapPage phys flags frame virt m k := by
  simp only [PageMap.mapVirtualMemory4k, Except.bind, bind, pure, Except.pure, List.append_nil]
  cases mapPage phys flags frame virt m k <;> rfl

/-- **When the loop returns**: exactly if there are pages for all tables it needs. -/
theorem mapBlocks_returns_iff (phys : PhysOf) {entry : Nat → Except Halt (U64 × U64)}
    (hentry : ∀ i, ∃ x, entry i = .ok x) {n : Nat} :
    ∀ (i : Nat) {virt : U64} {m : PageMap} {k : KernelMem}, MapInv k m →
      UserRange virt.toNat (4096 * n) →
      ((∃ r, mapBlocks phys entry n i virt m k = .ok r) ↔
        Supply k (m.newTables (pageNumber virt) n).ncard) := by
  induction n with
  | zero =>
    intro i virt m k hm _
    rw [newTables_zero, Set.ncard_empty]
    exact iff_of_true ⟨_, rfl⟩ ⟨hm.toKernelInv, Nat.zero_le _, Nat.zero_le _⟩
  | succ n ih =>
    intro i virt m k hm hrange
    obtain ⟨⟨flags, frame⟩, he⟩ := hentry i
    obtain ⟨hnext, hnum⟩ := hrange.next
    have hpml4 := hrange.pml4Index_eq
    obtain ⟨-, hi, hj, -⟩ := pageNumber_eq virt
    -- behind the last page it does not matter what the next number is
    have hcount : ∀ m' : PageMap, m'.newTables (pageNumber (virt + 0x1000#64)) n =
        m'.newTables (pageNumber virt + 1) n := by
      intro m'
      rcases Nat.eq_zero_or_pos n with rfl | hn
      · rw [newTables_zero, newTables_zero]
      · rw [hnum hn]
    have hcall : mapBlocks phys entry (n + 1) i virt m k = (do
        let (m, _, k) ← mapPage phys flags frame virt m k
        mapBlocks phys entry n (i + 1) (virt + 0x1000#64) m k) := by
      simp only [mapBlocks, he, mapVirtualMemory4k_one, Except.bind, bind]
    rw [hcall]
    by_cases ht : m.pageTables (pdptIndex virt) (pdeIndex virt) = 0#64
    · have hnull : m.pageTables (pageNumber virt / 2 ^ 18)
        (pageNumber virt / 512 % 512) = 0#64 := by
        rw [hi, hj, ht]
      rcases hm.mapPage_of_null phys flags frame hpml4 ht with
        ⟨v, taken, k₁, hv, hpage, hm₁, -, hsupply⟩ | ⟨hdry, e, hpage⟩
      · have hcard := newTables_of_null hnull hv n
        rw [hi, hj] at hcard
        rw [hpage, hcard, ← hsupply, ← hcount]
        exact ih (i + 1) hm₁ hnext
      · rw [hpage]
        refine iff_of_false ?_ fun hs ↦ hdry (hs.mono ?_)
        · rintro ⟨r, hr⟩
          cases hr
        · rw [newTables_of_null hnull (show (1#64 : U64) ≠ 0#64 by decide) n]
          exact Nat.le_add_left 1 _
    · have hthere : m.pageTables (pageNumber virt / 2 ^ 18)
        (pageNumber virt / 512 % 512) ≠ 0#64 := by
        rw [hi, hj]
        exact ht
      obtain ⟨k₁, hpage, hm₁, hsupply⟩ := hm.mapPage_of_table phys flags frame hpml4 ht
      rw [hpage, newTables_of_table hthere, ← hsupply, ← hcount]
      exact ih (i + 1) hm₁ hnext

namespace VmObject

theorem toNat_pages (obj : VmObject) : (obj.size >>> 12).toNat = obj.size.toNat / 4096 :=
  toNat_shiftRight_12 obj.size

/-- **An object that was mapped** lies in the user half, and the page map is as good as before. -/
theorem mapAllocatedBlocks_ok {phys : PhysOf} {obj : VmObject} {base : U64} {m m' : PageMap}
    {k k' : KernelMem} (hm : MapInv k m) (hsize : 0 < obj.size.toNat)
    (hsize' : obj.size.toNat % 4096 = 0) (hbase : base.toNat % 4096 = 0)
    (hcall : obj.mapAllocatedBlocks phys base m k = .ok (m', k')) :
    MapInv k' m' ∧ UserRange base.toNat obj.size.toNat := by
  have hpages : 0 < (obj.size >>> 12).toNat := by
    rw [toNat_pages]
    omega
  have hwhole : 4096 * (obj.size >>> 12).toNat = obj.size.toNat := by
    rw [toNat_pages]
    omega
  rw [← hwhole]
  rw [mapAllocatedBlocks] at hcall
  split at hcall
  · obtain ⟨hinv, hpml4⟩ := mapBlocks_ok hm hcall
    exact ⟨hinv, userRange_of_pml4Index hpages hbase hpml4⟩
  · split at hcall
    · cases hcall
    next hmoved =>
    rw [← not_not.mp hmoved] at hcall
    obtain ⟨hinv, hpml4⟩ := mapBlocks_ok hm hcall
    exact ⟨hinv, userRange_of_pml4Index hpages hbase hpml4⟩
  · obtain ⟨⟨m₁, taken, k₁⟩, hmap, hcall⟩ := bind_eq_ok.mp hcall
    cases hcall
    exact ⟨(hm.step_of_ok hmap).inv,
      userRange_of_pml4Index hpages hbase (mapVirtualMemory4k_pml4Index hmap)⟩

/-- **When a physical object can be mapped** in the user half: exactly if there are pages for the
tables that are missing. -/
theorem mapAllocatedBlocks_returns_iff (phys : PhysOf) {obj : VmObject}
    (hkind : obj.kind = .physical)
    {base : U64} {m : PageMap} {k : KernelMem} (hm : MapInv k m)
    (hsize : obj.size.toNat % 4096 = 0) (hrange : UserRange base.toNat obj.size.toNat) :
    (∃ r, obj.mapAllocatedBlocks phys base m k = .ok r) ↔
      Supply k (m.newTables (pageNumber base) (obj.size.toNat / 4096)).ncard := by
  have hentry : ∀ i, ∃ x, obj.physicalEntry i = .ok x := by
    intro i
    rw [physicalEntry]
    split
    · exact ⟨_, rfl⟩
    · exact ⟨_, rfl⟩
  have hwhole : 4096 * (obj.size.toNat / 4096) = obj.size.toNat := by omega
  rw [← hwhole] at hrange
  rw [mapAllocatedBlocks, hkind]
  simp only [toNat_pages]
  exact mapBlocks_returns_iff phys hentry 0 hm hrange

end VmObject
end Borrrdex
