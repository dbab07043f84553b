import Borrrdex.Mm.AddressSpaceRuns
import Borrrdex.Mm.VmObject

/-!
# `sys_mmap`

`sys_mmap` takes a size, a hint and flags from the registers of a user process.  It looks at the
flags, turns a size of zero down, and passes everything else on to `allocate_anonymous_vmo`, whose
assertions were not made for what a process may ask for.

`sys_mmap_iff` says for which arguments the call ends as a system call should, with an error or with
a new region, in every address space a process can have.  That takes an invariant of address spaces,
`ProcessInv`: every region is in the half of the addresses that a page map has tables for, because
an object that was mapped got an entry for each of its pages.  The list of the regions is one that
takes the new region (`Regions.Takes`): it does not have to grow beyond its 256 cells, and the cells
behind the last one hold null handles.

The numbers of the flags and of `EINVAL` come from the C library, and are parameters here.  The
store through the pointer in the first register is the second result.
-/

set_option autoImplicit false

namespace Borrrdex

open Span Regions PageMap KernelMem

/-- What `sys_mmap` knows from `abi-bits/vm-flags.h` and `abi-bits/errno.h`. -/
structure MmapAbi where
  /-- `MAP_PRIVATE`. -/
  mapPrivate : U64
  /-- `MAP_ANONYMOUS`. -/
  mapAnonymous : U64
  /-- `MAP_FIXED`. -/
  mapFixed : U64
  /-- `EINVAL`. -/
  einval : Nat
  /-- Error numbers are positive. -/
  einval_pos : 0 < einval

namespace MmapAbi

/-- There are unknown flags, or the mapping is not to be anonymous. -/
def Refuses (abi : MmapAbi) (flags : U64) : Prop :=
  flags &&& ~~~(abi.mapPrivate ||| abi.mapAnonymous ||| abi.mapFixed) ≠ 0#64 ∨
    flags &&& abi.mapAnonymous = 0#64

instance (abi : MmapAbi) (flags : U64) : Decidable (abi.Refuses flags) :=
  inferInstanceAs (Decidable (_ ∨ _))

/-- The mapping has to be where the hint says. -/
def fixed (abi : MmapAbi) (flags : U64) : Bool := decide (flags &&& abi.mapFixed ≠ 0#64)

end MmapAbi

/-- `sys_mmap`: what it returns, what it stores, and the address space. -/
def sysMmap {κ ω : Type} (abi : MmapAbi) (ops : VmOps κ ω) (size hint flags : U64) (l : Regions ω)
    (s : κ) : Except Halt (Int × Option U64 × Regions ω × κ) :=
  if size = 0#64 then .ok (-abi.einval, none, l, s)
  else if abi.Refuses flags then .ok (-abi.einval, none, l, s)
  else do
    let (region, l, s) ← allocateAnonymousVmo ops size hint (abi.fixed flags) l s
    match region with
    | none => return (-1, none, l, s)
    | some pos =>
      if (l.mem pos).base = 0#64 then return (-1, none, l, s)
      else return (0, some (l.mem pos).base, l, s)

/-! ## The address spaces of processes -/

/-- **What every address space of a process keeps.** -/
structure ProcessInv (l : Regions Nat) (s : VmState) : Prop extends MapInv s.mem s.map where
  apart : Apart l.spans
  aligned : ∀ t ∈ l.spans, t.lo % 4096 = 0 ∧ t.hi % 4096 = 0
  user : ∀ t ∈ l.spans, UserRange t.lo (t.hi - t.lo)

theorem lo_lt_of_mem_spans {ω : Type} {l : Regions ω} {t : Span} (ht : t ∈ l.spans) :
    t.lo < 2 ^ 64 := by
  obtain ⟨r, -, rfl⟩ := List.mem_map.mp ht
  exact r.base.isLt

/-- No candidate of a search for less than the user half wraps around. -/
theorem ProcessInv.candidate_end {l : Regions Nat} {s : VmState} (h : ProcessInv l s) {n : Nat}
    (hn : n ≤ 2 ^ 39) : firstFit n l.spans 0x1000 + n < 2 ^ 64 := by
  rcases firstFit_eq n l.spans 0x1000 with heq | ⟨t, ht, heq⟩
  · omega
  · have hlo := lo_lt_of_mem_spans ht
    have hne := h.apart.nonempty t ht
    have huser := h.user t ht
    rw [UserRange] at huser
    omega

/-- A new region in the user half. -/
theorem ProcessInv.insert {l : Regions Nat} {s s' : VmState} (h : ProcessInv l s)
    (hm : MapInv s'.mem s'.map) {pos : Nat} {b size : U64} (hsize : 0 < size.toNat)
    (hsize' : size.toNat % 4096 = 0) (hb : b.toNat % 4096 = 0)
    (hrange : UserRange b.toNat size.toNat) (hfits : Fits l.spans pos b.toNat size.toNat)
    (obj : Option Nat) : ProcessInv (l.insert pos ⟨b, size, obj⟩) s' := by
  have hend : b.toNat + size.toNat < 2 ^ 64 := by
    have := b.isLt
    rw [UserRange] at hrange
    omega
  have hmem : ∀ t ∈ spans (l.insert pos ⟨b, size, obj⟩),
      t = ⟨b.toNat, b.toNat + size.toNat⟩ ∨ t ∈ l.spans := by
    intro t ht
    rw [spans, KList.toList_insert l (length_spans l ▸ hfits.pos_le), List.map_insertIdx,
      Region.span_eq hend] at ht
    exact List.eq_or_mem_of_mem_insertIdx ht
  refine ⟨hm, apart_insert h.apart hsize hend hfits obj, fun t ht ↦ ?_, fun t ht ↦ ?_⟩
  · rcases hmem t ht with rfl | ht
    · exact ⟨hb, by simp only []; omega⟩
    · exact h.aligned t ht
  · rcases hmem t ht with rfl | ht
    · rw [UserRange] at hrange ⊢
      simp only []
      omega
    · exact h.user t ht

/-! ## Calls that return

Of a call that returned nothing is known about its arguments beforehand, and a sum may have wrapped
around on the way.  What is known is that the object was mapped. -/

/-- The candidate stays, or ends up right behind a region, whatever wraps around. -/
theorem findLoop_base {ω : Type} (size : U64) : ∀ (rs : List (Region ω)) (i : Nat) (base : U64),
    (findLoop size rs i base).2 = base ∨ ∃ r ∈ rs, (findLoop size rs i base).2 = r.endAddr
  | [], _, _ => .inl rfl
  | r :: rs, i, base => by
    have hskip : skipRegion size r base = base ∨ skipRegion size r base = r.endAddr := by
      simp only [skipRegion]
      grind
    rw [findLoop]
    split
    · exact .inl rfl
    · rcases findLoop_base size rs (i + 1) (skipRegion size r base) with heq | ⟨t, ht, heq⟩
      · rw [heq]
        exact hskip.imp_right fun h ↦ ⟨r, List.mem_cons_self, h⟩
      · exact .inr ⟨t, List.mem_cons_of_mem r ht, heq⟩

/-- A region found by the search starts on a page. -/
theorem ProcessInv.findAvailableRegion_some {l l₁ : Regions Nat} {s : VmState} (h : ProcessInv l s)
    {size : U64} {pos : Nat} (hcall : findAvailableRegion size l = some (pos, l₁)) :
    ∃ b : U64, b.toNat % 4096 = 0 ∧ l₁ = l.insert pos ⟨b, size, none⟩ := by
  have hbase : (findLoop size l.toList 0 0x1000#64).2.toNat % 4096 = 0 := by
    rcases findLoop_base size l.toList 0 0x1000#64 with heq | ⟨r, hr, heq⟩
    · rw [heq]
      decide
    · rw [heq]
      exact (h.aligned r.span (List.mem_map_of_mem hr)).2
  rw [findAvailableRegion] at hcall
  split at hcall
  · next i b hloop =>
    rw [hloop] at hbase
    cases hcall
    exact ⟨b, hbase, rfl⟩
  · next b hloop =>
    rw [hloop] at hbase
    split at hcall
    · cases hcall
      exact ⟨b, hbase, by rw [KList.insert, if_pos rfl]⟩
    · cases hcall

theorem allocateRegionAt_some {ω : Type} {l l₁ : Regions ω} {base size : U64} {pos : Nat}
    (hcall : allocateRegionAt base size l = some (pos, l₁)) :
    l₁ = l.insert pos ⟨base, size, none⟩ := by
  rw [allocateRegionAt] at hcall
  split at hcall
  · cases hcall
    rfl
  · cases hcall
  · split at hcall
    · cases hcall
      rw [KList.insert, if_pos rfl]
    · cases hcall

theorem mapInto_ok {κ ω : Type} {ops : VmOps κ ω} {make : κ → Except Halt (ω × κ)} {pos : Nat}
    {b size : U64} {l : Regions ω} {s : κ} {x : Option Nat × Regions ω × κ}
    (hcall : mapInto ops make pos (l.insert pos ⟨b, size, none⟩) s = .ok x) :
    mapAt ops make pos b size l s = .ok x := by
  by_cases hb : b = 0#64
  · rw [mapInto, KList.mem_insert_self, if_pos hb] at hcall
    cases hcall
  · rwa [mapInto_insert ops make pos hb] at hcall

section Steps

variable {phys : PhysOf} {mal : Malloc} {garbage : VmObject}
  {make : VmState → Except Halt (Nat × VmState)} {size : U64} {l l' : Regions Nat} {s s' : VmState}

/-- **A region that was mapped** is in the user half. -/
theorem mapAt_user {pos : Nat} {b : U64} {r : Option Nat} (hsize : 0 < size.toNat)
    (hsize' : size.toNat % 4096 = 0) (hb : b.toNat % 4096 = 0)
    (hmake : ∀ obj s₁, make s = .ok (obj, s₁) →
      MapInv s₁.mem s₁.map ∧ (s₁.objects obj).size = size)
    (hcall : mapAt (vmOps phys mal garbage) make pos b size l s = .ok (r, l', s')) :
    MapInv s'.mem s'.map ∧ UserRange b.toNat size.toNat := by
  rw [mapAt] at hcall
  obtain ⟨⟨obj, s₁⟩, hobj, hcall⟩ := bind_eq_ok.mp hcall
  obtain ⟨s₂, hmap, hcall⟩ := bind_eq_ok.mp hcall
  cases hcall
  obtain ⟨hm, hobjsize⟩ := hmake obj s₁ hobj
  obtain ⟨⟨map, mem⟩, hblocks, hmap⟩ := bind_eq_ok.mp hmap
  cases hmap
  -- counting the use changes neither the size nor the page map
  have hcounted : ((vmOps phys mal garbage).addUse obj s₁).objects obj =
      { s₁.objects obj with useCount := (s₁.objects obj).useCount + 1 } := Function.update_self ..
  rw [hcounted] at hblocks
  obtain ⟨hinv, hrange⟩ := VmObject.mapAllocatedBlocks_ok hm
    (show 0 < (s₁.objects obj).size.toNat by rwa [hobjsize])
    (show (s₁.objects obj).size.toNat % 4096 = 0 by rwa [hobjsize]) hb hblocks
  have hrange' : UserRange b.toNat (s₁.objects obj).size.toNat := hrange
  rw [hobjsize] at hrange'
  exact ⟨hinv, hrange'⟩

/-- **A call that returns** keeps the invariant. -/
theorem ProcessInv.mapRegion {base : U64} {fixed : Bool} {r : Option Nat} (h : ProcessInv l s)
    (hsize : 0 < size.toNat)
    (hmake : ∀ obj s₁, make s = .ok (obj, s₁) →
      MapInv s₁.mem s₁.map ∧ (s₁.objects obj).size = size)
    (hcall : Regions.mapRegion (vmOps phys mal garbage) make size base fixed l s =
      .ok (r, l', s')) : ProcessInv l' s' := by
  rw [Regions.mapRegion] at hcall
  split at hcall
  · cases hcall
  next hsize' =>
  rw [not_not, and_fff_eq_zero] at hsize'
  split at hcall
  · cases hcall
  next hbase' =>
  rw [not_not, and_fff_eq_zero] at hbase'
  split at hcall
  · next pos l₁ halloc =>
    -- the interval asked for: its end does not wrap around, because it could be mapped
    split at halloc
    · rw [allocateRegionAt_some halloc, KList.modify_insert] at hcall
      have hat := mapInto_ok hcall
      obtain ⟨hm, hrange⟩ := mapAt_user hsize hsize' hbase' hmake hat
      obtain ⟨-, obj, rfl⟩ := mapAt_ok hat
      have hend : base.toNat + size.toNat < 2 ^ 64 := by
        have := base.isLt
        rw [UserRange] at hrange
        omega
      rcases allocateRegionAt_spec h.apart hsize hend with ⟨pos', hfits, hspec⟩ | ⟨-, hspec⟩
      · rw [halloc] at hspec
        cases hspec
        exact h.insert hm hsize hsize' hbase' hrange hfits _
      · rw [halloc] at hspec
        cases hspec
    · cases halloc
  · rw [mapElsewhere] at hcall
    split at hcall
    · cases hcall
      exact h
    split at hcall
    · next pos l₁ hfind =>
      obtain ⟨b, hb, rfl⟩ := h.findAvailableRegion_some hfind
      have hat := mapInto_ok hcall
      obtain ⟨hm, hrange⟩ := mapAt_user hsize hsize' hb hmake hat
      obtain ⟨-, obj, rfl⟩ := mapAt_ok hat
      have hsmall : size.toNat ≤ 2 ^ 39 := by
        rw [UserRange] at hrange
        omega
      obtain ⟨b', -, hsome, hnone⟩ :=
        findAvailableRegion_spec h.apart hsize (h.candidate_end hsmall)
      by_cases hroom : Room l b'.toNat size.toNat
      · obtain ⟨pos', hfits, hspec⟩ := hsome hroom
        rw [hfind, Option.some.injEq, Prod.mk.injEq] at hspec
        obtain ⟨rfl, hsame⟩ := hspec
        have hregion := congrArg (fun l : Regions Nat ↦ (l.mem pos).base) hsame
        simp only [KList.mem_insert_self] at hregion
        rw [← hregion] at hfits
        exact h.insert hm hsize hsize' hb hrange hfits _
      · rw [hfind] at hnone
        cases hnone hroom
    · cases hcall

/-- What `malloc` asks for, to make an anonymous object. -/
def objectRequests (mal : Malloc) : List Nat := mal.requests 0 ++ mal.requests 1 ++ mal.requests 2

theorem objectRequests_pos (mal : Malloc) : ∀ n ∈ objectRequests mal, 1 ≤ n := by
  intro n hn
  rcases List.mem_append.mp hn with hn | hn
  · rcases List.mem_append.mp hn with hn | hn
    · exact mal.requests_pos 0 n hn
    · exact mal.requests_pos 1 n hn
  · exact mal.requests_pos 2 n hn

/-- Making an object takes fresh pages only. -/
theorem mapInv_mallocPages {k k' : KernelMem} {m : PageMap} (hm : MapInv k m)
    (hcall : mallocPages phys (objectRequests mal) k = .ok k') : MapInv k' m := by
  obtain ⟨hext, hram⟩ := mallocPages_extends hm.toKernelInv (objectRequests_pos mal) hcall
  exact hm.of_extends hext fun i _ j _ ↦ by rw [hram]

theorem newAnonymous_spec (hm : MapInv s.mem s.map) : ∀ obj s₁,
    (vmOps phys mal garbage).newAnonymous size s = .ok (obj, s₁) →
      MapInv s₁.mem s₁.map ∧ (s₁.objects obj).size = size := by
  intro obj s₁ hcall
  obtain ⟨mem, hmalloc, hcall⟩ := bind_eq_ok.mp hcall
  cases hcall
  refine ⟨mapInv_mallocPages hm hmalloc, ?_⟩
  simp only [Function.update_self]
  rfl

end Steps

/-! ## Runs -/

/-- **The address spaces a process can have**: a new page map and no regions, and from there on any
calls of `map_vmo` and `allocate_anonymous_vmo` that return, for objects that are not empty.
Between them pages are mapped, by page faults for one, and the rest of the kernel does what it
does. -/
inductive ProcessReaches (phys : PhysOf) : Regions Nat → VmState → Prop
  | create {mal : Malloc} {kernelPml4 : Nat → U64} {k₀ k : KernelMem} {m : PageMap}
      {taken : List U64} (garbage : Nat → Region Nat) (objects : Nat → VmObject) (next : Nat)
      (hk : KernelInv k₀) (hcall : createPageMap phys mal kernelPml4 k₀ = .ok (m, taken, k)) :
      ProcessReaches phys (empty garbage) ⟨k, m, objects, next⟩
  | mapVmo {mal : Malloc} {garbage : VmObject} {l l' : Regions Nat} {s s' : VmState} {obj : Nat}
      {base : U64} {fixed : Bool} {r : Option Nat} (hr : ProcessReaches phys l s)
      (hsize : (s.objects obj).size ≠ 0#64)
      (hcall : mapVmo (vmOps phys mal garbage) obj base fixed l s = .ok (r, l', s')) :
      ProcessReaches phys l' s'
  | anonymous {mal : Malloc} {garbage : VmObject} {l l' : Regions Nat} {s s' : VmState}
      {size base : U64} {fixed : Bool} {r : Option Nat} (hr : ProcessReaches phys l s)
      (hsize : size ≠ 0#64)
      (hcall : allocateAnonymousVmo (vmOps phys mal garbage) size base fixed l s =
        .ok (r, l', s')) : ProcessReaches phys l' s'
  | mapPages {l : Regions Nat} {s : VmState} {flags frame virt : U64} {amount : Nat} {m : PageMap}
      {taken : List U64} {k : KernelMem} (hr : ProcessReaches phys l s)
      (hcall : mapVirtualMemory4k phys flags amount frame virt s.map s.mem = .ok (m, taken, k)) :
      ProcessReaches phys l { s with map := m, mem := k }
  | other {l : Regions Nat} {s : VmState} {k : KernelMem} (objects : Nat → VmObject) (next : Nat)
      (hr : ProcessReaches phys l s) (hk : LeavesAlone s.map s.mem k) :
      ProcessReaches phys l ⟨k, s.map, objects, next⟩

theorem toNat_pos {x : U64} (h : x ≠ 0#64) : 0 < x.toNat := by
  rw [Nat.pos_iff_ne_zero]
  exact fun h0 ↦ h (BitVec.eq_of_toNat_eq h0)

/-- **Every run** keeps the invariant. -/
theorem processReaches_inv {phys : PhysOf} {l : Regions Nat} {s : VmState}
    (hr : ProcessReaches phys l s) : ProcessInv l s := by
  induction hr with
  | create garbage objects next hk hcall =>
    exact ⟨(createPageMap_spec hk hcall).2.inv, apart_nil, fun t ht ↦ absurd ht List.not_mem_nil,
      fun t ht ↦ absurd ht List.not_mem_nil⟩
  | mapVmo _ hsize hcall ih =>
    refine ih.mapRegion (toNat_pos hsize) (fun obj s₁ hmake ↦ ?_) hcall
    cases hmake
    exact ⟨ih.toMapInv, rfl⟩
  | anonymous _ hsize hcall ih =>
    exact ih.mapRegion (toNat_pos hsize) (newAnonymous_spec ih.toMapInv) hcall
  | mapPages _ hcall ih => exact ⟨(ih.step_of_ok hcall).inv, ih.apart, ih.aligned, ih.user⟩
  | other objects next _ hk ih => exact ⟨ih.of_leavesAlone hk, ih.apart, ih.aligned, ih.user⟩

/-! ## When the system call is safe -/

/-- There is memory for an anonymous object of this size at `b`: for what `malloc` asks for, and
then for the page tables that are missing. -/
def Backed (phys : PhysOf) (mal : Malloc) (s : VmState) (b size : U64) : Prop :=
  ∃ k, mallocPages phys (objectRequests mal) s.mem = .ok k ∧
    Supply k (s.map.newTables (pageNumber b) (size.toNat / 4096)).ncard

/-- The object that `allocate_anonymous_vmo` maps: it has been used once. -/
def usedOnce (size : U64) (garbage : VmObject) : VmObject :=
  { VmObject.anonymous size garbage with useCount := garbage.useCount + 1 }

/-- Once `malloc` has served it, the call returns exactly if the object can be mapped. -/
theorem mapAt_of_malloc (phys : PhysOf) (mal : Malloc) (garbage : VmObject) (pos : Nat)
    (b size : U64) (l : Regions Nat) (s : VmState) {k : KernelMem}
    (hmalloc : mallocPages phys (objectRequests mal) s.mem = .ok k) :
    (∃ x, mapAt (vmOps phys mal garbage) ((vmOps phys mal garbage).newAnonymous size) pos b size l
        s = .ok x) ↔ ∃ y, (usedOnce size garbage).mapAllocatedBlocks phys b s.map k = .ok y := by
  have hnew : (vmOps phys mal garbage).newAnonymous size s = .ok (s.next,
      ⟨k, s.map, Function.update s.objects s.next (VmObject.anonymous size garbage), s.next +
        1⟩) := by
    show (mallocPages phys (objectRequests mal) s.mem >>= _) = _
    rw [hmalloc]
    rfl
  rw [mapAt, hnew]
  constructor
  · rintro ⟨x, hcall⟩
    obtain ⟨⟨obj, s₁⟩, hmade, hcall⟩ := bind_eq_ok.mp hcall
    cases hmade
    obtain ⟨s₂, hmap, -⟩ := bind_eq_ok.mp hcall
    obtain ⟨y, hblocks, -⟩ := bind_eq_ok.mp hmap
    refine ⟨y, ?_⟩
    rw [← hblocks]
    simp only [vmOps, Function.update_self]
    rfl
  · rintro ⟨y, hblocks⟩
    refine ⟨_, bind_eq_ok.mpr ⟨_, rfl, bind_eq_ok.mpr ⟨_, bind_eq_ok.mpr ⟨y, ?_, rfl⟩, rfl⟩⟩⟩
    rw [← hblocks]
    simp only [vmOps, Function.update_self]
    rfl

/-- Once its place is found, the call returns exactly if the place is in the user half and there is
memory for it. -/
theorem ProcessInv.mapAt_returns_iff (phys : PhysOf) (mal : Malloc) (garbage : VmObject)
    {l : Regions Nat} {s : VmState} (h : ProcessInv l s) (pos : Nat) {b size : U64}
    (hsize : 0 < size.toNat) (hsize' : size.toNat % 4096 = 0) (hb : b.toNat % 4096 = 0) :
    (∃ x, mapAt (vmOps phys mal garbage) ((vmOps phys mal garbage).newAnonymous size) pos b size l
        s = .ok x) ↔ UserRange b.toNat size.toNat ∧ Backed phys mal s b size := by
  constructor
  · rintro ⟨⟨r, l', s'⟩, hcall⟩
    have hrange := (mapAt_user hsize hsize' hb (newAnonymous_spec h.toMapInv) hcall).2
    obtain ⟨⟨obj, s₁⟩, hnew, -⟩ := bind_eq_ok.mp hcall
    obtain ⟨k, hmalloc, -⟩ := bind_eq_ok.mp hnew
    have hmap := (mapAt_of_malloc phys mal garbage pos b size l s hmalloc).mp ⟨_, hcall⟩
    exact ⟨hrange, k, hmalloc, (VmObject.mapAllocatedBlocks_returns_iff phys rfl
      (mapInv_mallocPages h.toMapInv hmalloc) hsize' hrange).mp hmap⟩
  · rintro ⟨hrange, k, hmalloc, hsupply⟩
    exact (mapAt_of_malloc phys mal garbage pos b size l s hmalloc).mpr
      ((VmObject.mapAllocatedBlocks_returns_iff phys rfl
        (mapInv_mallocPages h.toMapInv hmalloc) hsize' hrange).mpr hsupply)

/-- The lowest free place is in the user half exactly if it ends there.  Between the user half and
its first alias there is no region to push it further. -/
theorem ProcessInv.userRange_least {l : Regions Nat} {s : VmState} (h : ProcessInv l s) {b n : Nat}
    (hn : 0 < n) (hb : IsLeast {b | 0x1000 ≤ b ∧ Free l.spans b n} b) :
    UserRange b n ↔ b + n ≤ 2 ^ 39 := by
  rw [UserRange]
  constructor
  · intro hrange
    have hfree : Free l.spans (2 ^ 39) n := by
      rintro t ht a h1 h2 ⟨h3, h4⟩
      have huser := h.user t ht
      rw [UserRange] at huser
      omega
    have hle : b ≤ 2 ^ 39 := hb.2 ⟨by decide, hfree⟩
    omega
  · intro hle
    omega

section Ends

variable {κ ω : Type} {abi : MmapAbi} {ops : VmOps κ ω} {size hint flags : U64} {l : Regions ω}
  {s : κ}

variable (abi ops size hint flags l s) in
/-- The call ends as it should: with an error and the address space as it was, or with a region that
is new in the list. -/
def MmapEnds : Prop :=
  (∃ e < 0, sysMmap abi ops size hint flags l s = .ok (e, none, l, s)) ∨
    ∃ b l' s' pos obj, sysMmap abi ops size hint flags l s = .ok (0, some b, l', s') ∧
      pos ≤ l.size ∧ l'.toList = l.toList.insertIdx pos ⟨b, size, some obj⟩

theorem mmapEnds_of_size_zero (hsize : size = 0#64) : MmapEnds abi ops size hint flags l s := by
  refine .inl ⟨-abi.einval, ?_, by rw [sysMmap, if_pos hsize]⟩
  have := abi.einval_pos
  omega

theorem mmapEnds_of_refuses (hsize : size ≠ 0#64) (hflags : abi.Refuses flags) :
    MmapEnds abi ops size hint flags l s := by
  refine .inl ⟨-abi.einval, ?_, by rw [sysMmap, if_neg hsize, if_pos hflags]⟩
  have := abi.einval_pos
  omega

/-- Behind the tests of `sys_mmap`, the call returns only if `allocate_anonymous_vmo` does. -/
theorem MmapEnds.allocate_ok (hends : MmapEnds abi ops size hint flags l s) (hsize : size ≠ 0#64)
    (hflags : ¬abi.Refuses flags) :
    ∃ x, allocateAnonymousVmo ops size hint (abi.fixed flags) l s = .ok x := by
  have hok : ∃ y, sysMmap abi ops size hint flags l s = .ok y := by
    rcases hends with ⟨e, -, hcall⟩ | ⟨b, l', s', pos, obj, hcall, -⟩
    · exact ⟨_, hcall⟩
    · exact ⟨_, hcall⟩
  obtain ⟨y, hcall⟩ := hok
  rw [sysMmap, if_neg hsize, if_neg hflags] at hcall
  obtain ⟨x, hx, -⟩ := bind_eq_ok.mp hcall
  exact ⟨x, hx⟩

theorem mmapEnds_of_null (hsize : size ≠ 0#64) (hflags : ¬abi.Refuses flags)
    (hcall : allocateAnonymousVmo ops size hint (abi.fixed flags) l s = .ok (none, l, s)) :
    MmapEnds abi ops size hint flags l s := by
  refine .inl ⟨-1, by decide, ?_⟩
  rw [sysMmap, if_neg hsize, if_neg hflags, hcall]
  rfl

/-- A call that has found a place ends as it should exactly if it returns. -/
theorem mmapEnds_iff_of_mapAt (hsize : size ≠ 0#64) (hflags : ¬abi.Refuses flags)
    {make : κ → Except Halt (ω × κ)} {pos : Nat} {b : U64} (hb : b ≠ 0#64) (hpos : pos ≤ l.size)
    (hcall : allocateAnonymousVmo ops size hint (abi.fixed flags) l s =
      mapAt ops make pos b size l s) :
    MmapEnds abi ops size hint flags l s ↔ ∃ x, mapAt ops make pos b size l s = .ok x := by
  constructor
  · intro hends
    rw [← hcall]
    exact hends.allocate_ok hsize hflags
  · rintro ⟨⟨r, l', s'⟩, hx⟩
    obtain ⟨rfl, obj, rfl⟩ := mapAt_ok hx
    refine .inr ⟨b, _, s', pos, obj, ?_, hpos, KList.toList_insert l hpos _⟩
    rw [sysMmap, if_neg hsize, if_neg hflags, hcall, hx]
    simp only [Except.bind, bind, KList.mem_insert_self, if_neg hb, pure, Except.pure]

end Ends

/-- **What is asked of the system call**: it ends as it should, and no sum it makes on the way wraps
around. -/
structure MmapSafe {κ ω : Type} (abi : MmapAbi) (ops : VmOps κ ω) (size hint flags : U64)
    (l : Regions ω) (s : κ) : Prop where
  ends : MmapEnds abi ops size hint flags l s
  sums_fit : size ≠ 0#64 → ¬abi.Refuses flags → SumsFit l size hint (abi.fixed flags)

/-- The arguments are for whole pages, and the place they lead to is in the user half with memory
to map it. -/
structure MmapServed (abi : MmapAbi) (phys : PhysOf) (mal : Malloc) (size hint flags : U64)
    (l : Regions Nat) (s : VmState) : Prop where
  size_aligned : size.toNat % 4096 = 0
  hint_aligned : hint.toNat % 4096 = 0
  hint_end : hint ≠ 0#64 → hint.toNat + size.toNat < 2 ^ 64
  at_hint : hint ≠ 0#64 → Free l.spans hint.toNat size.toNat →
    UserRange hint.toNat size.toNat ∧ Backed phys mal s hint size
  first_fit : ¬(hint ≠ 0#64 ∧ Free l.spans hint.toNat size.toNat) → abi.fixed flags = false →
    ∃ b : U64, IsLeast {b | 0x1000 ≤ b ∧ Free l.spans b size.toNat} b.toNat ∧
      b.toNat + size.toNat ≤ 2 ^ 39 ∧ Backed phys mal s b size

section Cases

variable {phys : PhysOf} {abi : MmapAbi} {mal : Malloc} {garbage : VmObject} {size hint flags : U64}
  {l : Regions Nat} {s : VmState}

/-- The two assertions about pages. -/
theorem MmapEnds.aligned (hends : MmapEnds abi (vmOps phys mal garbage) size hint flags l s)
    (hsize : size ≠ 0#64) (hflags : ¬abi.Refuses flags) :
    size.toNat % 4096 = 0 ∧ hint.toNat % 4096 = 0 := by
  obtain ⟨x, hcall⟩ := hends.allocate_ok hsize hflags
  rw [allocateAnonymousVmo, Regions.mapRegion] at hcall
  split at hcall
  · cases hcall
  next hsize' =>
  split at hcall
  · cases hcall
  next hhint =>
  exact ⟨and_fff_eq_zero.mp (not_not.mp hsize'), and_fff_eq_zero.mp (not_not.mp hhint)⟩

/-- The hint is free. -/
theorem ProcessInv.mmapEnds_at_hint (h : ProcessInv l s) (hsize : size ≠ 0#64)
    (hflags : ¬abi.Refuses flags) (hsize' : size.toNat % 4096 = 0)
    (hhint' : hint.toNat % 4096 = 0) (hhint : hint ≠ 0#64)
    (hend : hint.toNat + size.toNat < 2 ^ 64) (hfree : Free l.spans hint.toNat size.toNat) :
    MmapEnds abi (vmOps phys mal garbage) size hint flags l s ↔
      UserRange hint.toNat size.toNat ∧ Backed phys mal s hint size := by
  have hpos := toNat_pos hsize
  obtain ⟨pos, hfits, hcall⟩ := mapRegion_at_base (vmOps phys mal garbage)
    ((vmOps phys mal garbage).newAnonymous size) (abi.fixed flags) s h.apart hpos hsize' hhint' hend
    hhint hfree
  rw [mmapEnds_iff_of_mapAt hsize hflags hhint (length_spans l ▸ hfits.pos_le) hcall]
  exact h.mapAt_returns_iff phys mal garbage pos hpos hsize' hhint'

/-- The hint is not free, or there is none, and the call has to search. -/
theorem ProcessInv.mmapEnds_first_fit (h : ProcessInv l s) (hsize : size ≠ 0#64)
    (hflags : ¬abi.Refuses flags) (hsize' : size.toNat % 4096 = 0)
    (hhint' : hint.toNat % 4096 = 0) (hend : hint ≠ 0#64 → hint.toNat + size.toNat < 2 ^ 64)
    (hnot : ¬(hint ≠ 0#64 ∧ Free l.spans hint.toNat size.toNat))
    (hfixed : abi.fixed flags = false) :
    MmapEnds abi (vmOps phys mal garbage) size hint flags l s ∧
        firstFit size.toNat l.spans 0x1000 + size.toNat < 2 ^ 64 ↔
      ∃ b : U64, IsLeast {b | 0x1000 ≤ b ∧ Free l.spans b size.toNat} b.toNat ∧
        b.toNat + size.toNat ≤ 2 ^ 39 ∧ Backed phys mal s b size := by
  have hpos := toNat_pos hsize
  have helse := mapRegion_elsewhere (vmOps phys mal garbage)
    ((vmOps phys mal garbage).newAnonymous size) (abi.fixed flags) s h.apart hpos hsize' hhint' hend
    hnot
  have hleast := firstFit_isLeast (c := 0x1000) hpos h.apart
  have halign : firstFit size.toNat l.spans 0x1000 % 4096 = 0 := by
    rcases firstFit_eq size.toNat l.spans 0x1000 with heq | ⟨t, ht, heq⟩
    · rw [heq]
    · rw [heq]
      exact (h.aligned t ht).2
  -- the search leads to one place, and there is room for it below the kernel if it is a user's
  have hplace : firstFit size.toNat l.spans 0x1000 + size.toNat < 2 ^ 64 →
      ∃ b : U64, b.toNat = firstFit size.toNat l.spans 0x1000 ∧
        (MmapEnds abi (vmOps phys mal garbage) size hint flags l s ↔
          b.toNat + size.toNat ≤ 2 ^ 39 ∧ Backed phys mal s b size) := by
    intro hfit
    obtain ⟨b, hb, -, hsome, hnone⟩ := mapElsewhere_first_fit (vmOps phys mal garbage)
      ((vmOps phys mal garbage).newAnonymous size) s h.apart hpos hfit
    have hb0 : b ≠ 0#64 := by
      rintro rfl
      exact absurd hb.1.1 (by decide)
    refine ⟨b, hb.unique hleast, ?_⟩
    rw [← h.userRange_least hpos hb]
    by_cases hroom : Room l b.toNat size.toNat
    · obtain ⟨pos, hfits, hcall⟩ := hsome hroom
      rw [mmapEnds_iff_of_mapAt hsize hflags hb0 (length_spans l ▸ hfits.pos_le)
        (helse.trans (hfixed ▸ hcall))]
      exact h.mapAt_returns_iff phys mal garbage pos hpos hsize' (hb.unique hleast ▸ halign)
    · refine iff_of_false (fun hends ↦ ?_) fun hrange ↦ hroom (.inl ?_)
      · obtain ⟨x, hx⟩ := hends.allocate_ok hsize hflags
        rw [allocateAnonymousVmo, helse, hfixed, hnone hroom] at hx
        cases hx
      · have hle := (h.userRange_least hpos hb).mp hrange.1
        have hkernel : 2 ^ 39 < kernelVirtualBase.toNat := by decide
        omega
  constructor
  · rintro ⟨hends, hfit⟩
    obtain ⟨b, hb, hiff⟩ := hplace hfit
    exact ⟨b, hb ▸ hleast, hiff.mp hends⟩
  · rintro ⟨b, hb, hle, hbacked⟩
    have heq : b.toNat = firstFit size.toNat l.spans 0x1000 := hb.unique hleast
    have hfit : firstFit size.toNat l.spans 0x1000 + size.toNat < 2 ^ 64 := by omega
    obtain ⟨b', hb', hiff⟩ := hplace hfit
    have hsame : b' = b := BitVec.eq_of_toNat_eq (hb'.trans heq.symm)
    rw [hsame] at hiff
    exact ⟨hiff.mpr ⟨hle, hbacked⟩, hfit⟩

end Cases

/-- **When `sys_mmap` is safe.**  In every address space a process can have, the call ends with an
error or with a new region, and without a sum that wraps around, exactly if it is turned down for
its size or its flags, or its arguments are for whole pages and lead to a place in the user half
that there is memory for. -/
theorem sys_mmap_iff {phys : PhysOf} {l : Regions Nat} {s : VmState}
    (hr : ProcessReaches phys l s) (abi : MmapAbi) (mal : Malloc) (garbage : VmObject)
    (size hint flags : U64) :
    MmapSafe abi (vmOps phys mal garbage) size hint flags l s ↔
      size = 0#64 ∨ abi.Refuses flags ∨ MmapServed abi phys mal size hint flags l s := by
  have h := processReaches_inv hr
  by_cases hsize : size = 0#64
  · exact iff_of_true ⟨mmapEnds_of_size_zero hsize, fun h0 ↦ absurd hsize h0⟩ (.inl hsize)
  by_cases hflags : abi.Refuses flags
  · exact iff_of_true ⟨mmapEnds_of_refuses hsize hflags, fun _ hnot ↦ absurd hflags hnot⟩
      (.inr (.inl hflags))
  simp only [hsize, hflags, false_or]
  constructor
  · rintro ⟨hends, hsums⟩
    obtain ⟨hend, hfit⟩ := hsums hsize hflags
    obtain ⟨hsize', hhint'⟩ := hends.aligned hsize hflags
    exact ⟨hsize', hhint', hend,
      fun hhint hfree ↦ (h.mmapEnds_at_hint hsize hflags hsize' hhint' hhint (hend hhint)
        hfree).mp hends,
      fun hnot hfixed ↦ (h.mmapEnds_first_fit hsize hflags hsize' hhint' hend hnot hfixed).mp
        ⟨hends, hfit hfixed hnot⟩⟩
  · rintro ⟨hsize', hhint', hend, hat, hfirst⟩
    by_cases hfree : hint ≠ 0#64 ∧ Free l.spans hint.toNat size.toNat
    · exact ⟨(h.mmapEnds_at_hint hsize hflags hsize' hhint' hfree.1 (hend hfree.1) hfree.2).mpr
        (hat hfree.1 hfree.2), fun _ _ ↦ ⟨hend, fun _ hnot ↦ absurd hfree hnot⟩⟩
    · cases hfixed : abi.fixed flags with
      | true =>
        refine ⟨mmapEnds_of_null hsize hflags ?_, fun _ _ ↦ ⟨hend, fun hnot ↦ ?_⟩⟩
        · rw [allocateAnonymousVmo, mapRegion_elsewhere _ _ _ s h.apart (toNat_pos hsize) hsize'
            hhint' hend hfree, mapElsewhere, if_pos hfixed]
        · rw [hfixed] at hnot
          cases hnot
      | false =>
        obtain ⟨hends, hfit⟩ := (h.mmapEnds_first_fit hsize hflags hsize' hhint' hend hfree
          hfixed).mpr (hfirst hfree hfixed)
        exact ⟨hends, fun _ _ ↦ ⟨hend, fun _ _ ↦ hfit⟩⟩

/-! ## A first process -/

/-- One C library's `EINVAL`. -/
theorem libraryEinval_pos : 0 < 22 := by decide

/-- The numbers it uses. -/
def libraryAbi : MmapAbi := ⟨0x02#64, 0x20#64, 0x10#64, 22, libraryEinval_pos⟩

/-- One page needs one new table at most. -/
theorem ncard_newTables_one (m : PageMap) (p : Nat) : (m.newTables p 1).ncard ≤ 1 := by
  by_cases ht : m.pageTables (p / 2 ^ 18) (p / 512 % 512) = 0#64
  · rw [newTables_of_null ht (show (1#64 : U64) ≠ 0#64 by decide), newTables_zero, Set.ncard_empty]
  · rw [newTables_of_table ht, newTables_zero, Set.ncard_empty]
    exact Nat.zero_le 1

/-- A process on a machine with four megabytes, with no regions yet. -/
theorem first_process : ∃ l s, ProcessReaches (fun _ ↦ 0#64) l s ∧ l.spans = [] ∧
    Supply s.mem 507 := by
  obtain ⟨m, taken, k, hcall, hsupply⟩ := fourMegMem_create fun _ _ ↦ 0#64
  exact ⟨empty fun _ ↦ ⟨0#64, 0#64, none⟩, ⟨k, m, fun _ ↦ emptyObject, 0⟩,
    .create _ _ _ (fourMegMem_supply _).toKernelInv hcall, rfl, hsupply⟩

theorem sys_mmap_iff_first_page : ∃ l s, ProcessReaches (fun _ ↦ 0#64) l s ∧
    MmapSafe libraryAbi (vmOps (fun _ ↦ 0#64) quietMalloc emptyObject) 0x1000#64 0x5000#64 0x30#64
      l s := by
  obtain ⟨l, s, hr, hspans, hsupply⟩ := first_process
  refine ⟨l, s, hr, (sys_mmap_iff hr libraryAbi quietMalloc emptyObject 0x1000#64 0x5000#64
    0x30#64).mpr (.inr (.inr ⟨by decide, by decide, fun _ ↦ by decide, fun _ _ ↦ ?_,
      fun _ hfixed ↦ absurd hfixed (by decide)⟩))⟩
  refine ⟨by unfold UserRange; decide, s.mem, rfl, hsupply.mono ?_⟩
  exact (ncard_newTables_one s.map _).trans (by decide)

/-- **A process that asks for one byte stops the kernel**, at the assertion that the size is a
number of pages. -/
theorem mmap_of_one_byte_halts : ∃ l s, ProcessReaches (fun _ ↦ 0#64) l s ∧
    sysMmap libraryAbi (vmOps (fun _ ↦ 0#64) quietMalloc emptyObject) 1#64 0#64 0x20#64 l s =
      .error .sizeNotAligned ∧
    ¬MmapSafe libraryAbi (vmOps (fun _ ↦ 0#64) quietMalloc emptyObject) 1#64 0#64 0x20#64 l s := by
  obtain ⟨l, s, hr, -, -⟩ := first_process
  have hflags : ¬libraryAbi.Refuses 0x20#64 := by decide
  refine ⟨l, s, hr, ?_, fun hsafe ↦ ?_⟩
  · rw [sysMmap, if_neg (by decide), if_neg hflags, allocateAnonymousVmo, Regions.mapRegion,
      if_pos (by decide)]
    rfl
  · exact absurd (hsafe.ends.aligned (by decide) hflags).1 (by decide)

end Borrrdex
