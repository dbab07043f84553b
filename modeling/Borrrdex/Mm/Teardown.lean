import Borrrdex.Memory.MapFootprint
import Borrrdex.Mm.AddressSpaceRuns
import Borrrdex.Mm.DemandPaging

/-!
# Tearing an address space down

A region holds its object through a `ref_counted` handle, and so does every cell of the memory
behind `_regions`: `insert` moves the cells up by copying them, and each copy takes a reference and
gives up another.  An object is deleted, and its blocks are freed, when its last handle is gone.

`~address_space` goes through the regions to call `remove_use`, which counts something else, and
then `clear` sets the size of the list to zero.  The list's own destructor frees the memory.
Neither of them destroys a region, so no handle is ever given up.

The counters are natural numbers here: there is not memory enough for 2^32 handles.  The memory of a
new list is taken to hold no handles, which `malloc` does not promise; so no counter falls to zero
while a region is mapped, and they are updated here after the rest of the call was made.  Handles
that are made and destroyed within one call are left out where the object has another one all the
while.  So is copy on write in `page_fault_handler`, since no object ever has `_cow` set
(`SystemInv.not_cow`).
-/

set_option autoImplicit false

namespace Borrrdex

open PageMap KernelMem KernelHeap PhysAllocator Regions

/-! ## Objects and their handles -/

/-- What all address spaces share. -/
structure ObjectStore where
  /-- The kernel's memory. -/
  mem : KernelMem
  /-- The objects. -/
  objects : Nat → VmObject
  /-- The number of the next object. -/
  next : Nat
  /-- The counter of the handles of each object. -/
  refs : Nat → Nat
  /-- The objects deleted so far. -/
  deleted : List Nat

namespace VmObject

/-- The loop of `~physical_vm_object`: `n` pages are left, and page `i` is next. -/
def freeBlocks (obj : VmObject) : Nat → Nat → PhysAllocator → Except Halt PhysAllocator
  | 0, _, a => .ok a
  | n + 1, i, a =>
    if obj.physicalBlocks i ≠ 0#32 then do
      let a ← a.freePhysicalBlock (obj.blockOf i)
      freeBlocks obj n (i + 1) a
    else freeBlocks obj n (i + 1) a

/-- The destructor of an object.  `_use_count` is signed. -/
def destruct (obj : VmObject) (k : KernelMem) : Except Halt KernelMem :=
  match obj.kind with
  | .framebuffer _ => .ok k
  | _ =>
    if (1#32).slt obj.useCount then .error .objectInUse
    else do
      let blocks ← obj.freeBlocks (obj.size >>> 12).toNat 0 k.blocks
      return { k with blocks := blocks }

/-- `hit`, which a frame buffer does not override. -/
def hitAny (phys : PhysOf) (cr3 base offset : U64) (obj : VmObject) (m : PageMap) (k : KernelMem) :
    Except Halt (Int × VmObject × PageMap × KernelMem) :=
  match obj.kind with
  | .framebuffer _ => .ok (1, obj, m, k)
  | _ => obj.hit phys cr3 base offset m k

/-- The loop of the constructor of an object that is not anonymous: a cleared block for
each page. -/
def imageBlocks (mapping : U64) : Nat → Nat → (Nat → U32) → KernelMem →
    Except Halt ((Nat → U32) × KernelMem)
  | 0, _, blocks, k => .ok (blocks, k)
  | n + 1, i, blocks, k => do
    let (frame, a) ← k.blocks.allocatePhysicalBlock
    let k ← { k with
        blocks := a
        heap := kernelMapVirtualMemory4k kernelFlags 1 frame mapping k.heap }.fillPage mapping
      fun _ ↦ 0#64
    imageBlocks mapping n (i + 1) (Function.update blocks i ((frame >>> 12).setWidth 32)) k

end VmObject

namespace ObjectStore

/-- `retain`. -/
def retain (handle : Option Nat) (s : ObjectStore) : ObjectStore :=
  match handle with
  | none => s
  | some o => { s with refs := Function.update s.refs o (s.refs o + 1) }

/-- `release`; `chunks` is what liballoc gives up when an object, its blocks and its counter are
freed. -/
def release (chunks : Nat → List (U64 × Nat)) (handle : Option Nat) (s : ObjectStore) :
    Except Halt ObjectStore :=
  match handle with
  | none => .ok s
  | some o =>
    if s.refs o = 1 then do
      let mem ← (s.objects o).destruct s.mem
      let mem ← freeChunks (chunks o) mem
      return { s with
        mem := mem
        refs := Function.update s.refs o 0
        deleted := s.deleted ++ [o] }
    else .ok { s with refs := Function.update s.refs o (s.refs o - 1) }

/-- What `operator=` does to the counters. -/
def assign (chunks : Nat → List (U64 × Nat)) (old new : Option Nat) (s : ObjectStore) :
    Except Halt ObjectStore := do
  let s ← s.release chunks old
  return s.retain new

/-- `new process_image_vm_object(base, size, write)`, and a handle for it. -/
def newImage (phys : PhysOf) (mal : Malloc) (garbage : VmObject) (base size : U64) (write : Bool)
    (s : ObjectStore) : Except Halt ObjectStore :=
  if size &&& 0xFFF#64 ≠ 0#64 then .error .sizeNotAligned
  else do
    let k ← mallocPages phys (mal.requests 0 ++ mal.requests 1) s.mem
    let (mapping, heap) ← kernelAllocate4kPages phys 1 k.heap
    let (blocks, k) ← VmObject.imageBlocks mapping (pageCount4K size).toNat 0 garbage.physicalBlocks
      { k with heap := heap }
    let k := { k with heap := kernelFree4kPages 1 mapping k.heap }
    let k ← mallocPages phys (mal.requests 2) k
    return { s with
      mem := k
      objects := Function.update s.objects s.next
        ⟨size, garbage.useCount, false, false, blocks, .processImage base write⟩
      next := s.next + 1
      refs := Function.update s.refs s.next 1 }

/-! ## The cells of the list -/

/-- The loop of `insert`, as it moves the handles of the cells from `pos` on up. -/
def shiftHandles (chunks : Nat → List (U64 × Nat)) (pos : Nat) : Nat → (Nat → Region Nat) →
    ObjectStore → Except Halt ObjectStore
  | 0, _, s => .ok s
  | i + 1, mem, s =>
    if pos < i + 1 then do
      let s ← s.assign chunks (mem (i + 1)).vmObject (mem i).vmObject
      shiftHandles chunks pos i (Function.update mem (i + 1) (mem i)) s
    else .ok s

/-- What `insert` does to the counters, for a region without an object. -/
def insertHandles (chunks : Nat → List (U64 × Nat)) (pos : Nat) (l : Regions Nat)
    (s : ObjectStore) : Except Halt ObjectStore :=
  if pos = l.size then s.assign chunks (l.mem l.size).vmObject none
  else do
    let s ← s.shiftHandles chunks pos l.size l.mem
    s.assign chunks (KList.shiftUp pos l.size l.mem pos).vmObject none

/-- And what mapping an object into a new region does: the region is inserted without an object,
and then gets it. -/
def mapHandles (chunks : Nat → List (U64 × Nat)) (l : Regions Nat) (pos : Option Nat) (o : Nat)
    (s : ObjectStore) : Except Halt ObjectStore :=
  match pos with
  | none => .ok s
  | some pos => do
    let s ← s.insertHandles chunks pos l
    s.assign chunks none (some o)

end ObjectStore

/-! ## Address spaces -/

/-- `address_space`. -/
structure AddressSpace where
  /-- `_regions`. -/
  regions : Regions Nat
  /-- `_page_map`. -/
  pageMap : PageMap

/-- The chunks liballoc gives up when an address space and its process are deleted: for the
memory of the list, for the arrays of the page map, and for the rest. -/
structure Frees where
  regions : List (U64 × Nat)
  tables : Nat → List (U64 × Nat)
  rest : List (U64 × Nat)

namespace AddressSpace

/-- The objects, as the functions of an address space see them. -/
def vmState (a : AddressSpace) (s : ObjectStore) : VmState := ⟨s.mem, a.pageMap, s.objects, s.next⟩

/-- And what these functions leave. -/
def withVm (v : VmState) (s : ObjectStore) : ObjectStore :=
  { s with mem := v.mem, objects := v.objects, next := v.next }

/-- `map_vmo`. -/
def mapVmo (phys : PhysOf) (mal : Malloc) (garbage : VmObject) (chunks : Nat → List (U64 × Nat))
    (o : Nat) (base : U64) (fixed : Bool) (a : AddressSpace) (s : ObjectStore) :
    Except Halt (Option Nat × AddressSpace × ObjectStore) := do
  let (pos, l, v) ← Regions.mapVmo (vmOps phys mal garbage) o base fixed a.regions (a.vmState s)
  let s ← (withVm v s).mapHandles chunks a.regions pos o
  return (pos, ⟨l, v.map⟩, s)

/-- `allocate_anonymous_vmo`. -/
def allocateAnonymousVmo (phys : PhysOf) (mal : Malloc) (garbage : VmObject)
    (chunks : Nat → List (U64 × Nat)) (size base : U64) (fixed : Bool) (a : AddressSpace)
    (s : ObjectStore) : Except Halt (Option Nat × AddressSpace × ObjectStore) := do
  let (pos, l, v) ←
    Regions.allocateAnonymousVmo (vmOps phys mal garbage) size base fixed a.regions (a.vmState s)
  let s' ← (withVm v s).mapHandles chunks a.regions pos s.next
  return (pos, ⟨l, v.map⟩, s')

/-- What `page_fault_handler` does about a fault of the process; the process goes on if the status
is 0. -/
def pageFault (phys : PhysOf) (cr3 address : U64) (a : AddressSpace) (s : ObjectStore) :
    Except Halt (Int × AddressSpace × ObjectStore) :=
  match addressToRegion address a.regions with
  | none => .ok (1, a, s)
  | some pos =>
    match (a.regions.mem pos).vmObject with
    | none => .ok (1, a, s)
    | some o => do
      let base := (a.regions.mem pos).base
      let (status, obj, m, k) ←
        (s.objects o).hitAny phys cr3 base (address - base) a.pageMap s.mem
      return (status, { a with pageMap := m },
        { s with mem := k, objects := Function.update s.objects o obj })

/-- The loop of `~address_space`. -/
def removeUses : List (Region Nat) → (Nat → VmObject) → Nat → VmObject
  | [], objects => objects
  | r :: rs, objects =>
    match r.vmObject with
    | none => removeUses rs objects
    | some o =>
      removeUses rs (Function.update objects o
        { objects o with useCount := (objects o).useCount - 1 })

/-- `~address_space`, with the destructor of `_regions`, which runs after it.  `clear` makes the
list empty, and `~list` frees the memory. -/
def destroy (frees : Frees) (a : AddressSpace) (s : ObjectStore) : Except Halt ObjectStore := do
  let objects := removeUses a.regions.toList s.objects
  let (_, mem) ← destroyPageMap frees.tables a.pageMap s.mem
  let mem ← freeChunks frees.regions mem
  return { s with mem := mem, objects := objects }

/-- The loop of `gc`, over the processes in the order it takes them. -/
def collect : List (AddressSpace × Frees) → ObjectStore → Except Halt ObjectStore
  | [], s => .ok s
  | (a, frees) :: dead, s => do
    let s ← a.destroy frees s
    let mem ← freeChunks frees.rest s.mem
    collect dead { s with mem := mem }

/-- `gc`, which starts with the last of `dead_processes`. -/
def gc (dead : List (AddressSpace × Frees)) (s : ObjectStore) : Except Halt ObjectStore :=
  collect dead.reverse s

/-- How many regions map an object. -/
def mappings (a : AddressSpace) (o : Nat) : Nat :=
  a.regions.toList.countP fun r ↦ r.vmObject = some o

/-- No region maps any. -/
def MapsNothing (a : AddressSpace) : Prop := ∀ r ∈ a.regions.toList, r.vmObject = none

end AddressSpace

/-! ## Counting the handles of the cells -/

namespace ObjectStore

/-- One more handle. -/
def plus (refs : Nat → Nat) : Option Nat → Nat → Nat
  | none => refs
  | some o => Function.update refs o (refs o + 1)

theorem retain_eq (handle : Option Nat) (s : ObjectStore) :
    s.retain handle = { s with refs := plus s.refs handle } := by
  cases handle <;> rfl

/-- A handle of an object that has another. -/
theorem release_plus (chunks : Nat → List (U64 × Nat)) {handle : Option Nat} {refs : Nat → Nat}
    (s : ObjectStore) (hother : ∀ o, handle = some o → 1 ≤ refs o) :
    { s with refs := plus refs handle }.release chunks handle = .ok { s with refs := refs } := by
  cases handle with
  | none => rfl
  | some o =>
    have ho := hother o rfl
    have hrefs : plus refs (some o) o = refs o + 1 := Function.update_self _ _ _
    simp only [release, hrefs]
    rw [if_neg (by omega), Nat.add_sub_cancel, plus, Function.update_idem, Function.update_eq_self]

/-- **Moving the cells up** takes and gives up one handle for each, and leaves one over: the cell at
`pos` is still there when its copy is. -/
theorem shiftHandles_eq (chunks : Nat → List (U64 × Nat)) {pos : Nat} {refs : Nat → Nat} :
    ∀ {i : Nat} (mem : Nat → Region Nat) (s : ObjectStore), pos ≤ i →
      (∀ j ≤ i, ∀ o, (mem j).vmObject = some o → 1 ≤ refs o) →
      { s with refs := plus refs (mem i).vmObject }.shiftHandles chunks pos i mem =
        .ok { s with refs := plus refs (mem pos).vmObject }
  | 0, mem, s, hpos, _ => by
    rw [shiftHandles, Nat.le_zero.mp hpos]
  | i + 1, mem, s, hpos, hheld => by
    rw [shiftHandles]
    by_cases hlt : pos < i + 1
    · have hassign : { s with refs := plus refs (mem (i + 1)).vmObject }.assign chunks
          (mem (i + 1)).vmObject (mem i).vmObject =
          .ok { s with refs := plus refs (mem i).vmObject } := by
        rw [assign, release_plus chunks s fun o ho ↦ hheld (i + 1) le_rfl o ho]
        simp only [Except.bind, bind, pure, Except.pure, retain_eq]
      have hmem : ∀ j ≤ i, Function.update mem (i + 1) (mem i) j = mem j := fun j hj ↦
        Function.update_of_ne (by omega) _ _
      have hpos' : pos ≤ i := by omega
      have ih := shiftHandles_eq chunks (Function.update mem (i + 1) (mem i)) s hpos'
        fun j hj o ho ↦ hheld j (Nat.le_succ_of_le hj) o (by rw [← hmem j hj]; exact ho)
      rw [hmem i le_rfl, hmem pos (by omega)] at ih
      rw [if_pos hlt, hassign]
      exact ih
    · rw [if_neg hlt, show pos = i + 1 by omega]

/-- **Inserting a region** changes no counter. -/
theorem insertHandles_eq (chunks : Nat → List (U64 × Nat)) {pos : Nat} {l : Regions Nat}
    (s : ObjectStore) (hpos : pos ≤ l.size) (hnew : (l.mem l.size).vmObject = none)
    (hheld : ∀ j < l.size, ∀ o, (l.mem j).vmObject = some o → 1 ≤ s.refs o) :
    s.insertHandles chunks pos l = .ok s := by
  rw [insertHandles]
  by_cases heq : pos = l.size
  · rw [if_pos heq, hnew]
    rfl
  · have hheld' : ∀ j ≤ l.size, ∀ o, (l.mem j).vmObject = some o → 1 ≤ s.refs o := by
      intro j hj o ho
      rcases Nat.lt_or_eq_of_le hj with hlt | rfl
      · exact hheld j hlt o ho
      · rw [hnew] at ho
        cases ho
    have hshift := shiftHandles_eq chunks l.mem s hpos hheld'
    rw [hnew] at hshift
    rw [if_neg heq, show s.shiftHandles chunks pos l.size l.mem = _ from hshift]
    have hcell : KList.shiftUp pos l.size l.mem pos = l.mem pos := by
      rw [KList.shiftUp_apply, if_neg (by omega)]
    simp only [Except.bind, bind]
    rw [hcell, assign, release_plus chunks s fun o ho ↦ hheld' pos hpos o ho]
    rfl

theorem mapHandles_eq (chunks : Nat → List (U64 × Nat)) {pos : Nat} {l : Regions Nat} (o : Nat)
    (s : ObjectStore) (hpos : pos ≤ l.size) (hnew : (l.mem l.size).vmObject = none)
    (hheld : ∀ j < l.size, ∀ o, (l.mem j).vmObject = some o → 1 ≤ s.refs o) :
    s.mapHandles chunks l (some pos) o = .ok { s with refs := plus s.refs (some o) } := by
  simp only [mapHandles, insertHandles_eq chunks s hpos hnew hheld, Except.bind, bind]
  rfl

end ObjectStore

/-! ## Where a region goes -/

namespace Regions

variable {κ ω : Type}

theorem findLoop_lt {size : U64} : ∀ {rs : List (Region ω)} {i : Nat} {base b : U64} {pos : Nat},
    findLoop size rs i base = (some pos, b) → pos < i + rs.length
  | [], _, _, _, _, h => by cases h
  | r :: rs, i, base, b, pos, h => by
    rw [findLoop] at h
    rw [List.length_cons]
    split at h
    · cases h
      omega
    · have := findLoop_lt h
      omega

theorem allocateAtLoop_lt {base size : U64} : ∀ {rs : List (Region ω)} {i pos : Nat},
    allocateAtLoop base size rs i = some (some pos) → pos < i + rs.length
  | [], _, _, h => by cases h
  | r :: rs, i, pos, h => by
    rw [allocateAtLoop] at h
    rw [List.length_cons]
    split at h
    · have := allocateAtLoop_lt h
      omega
    · split at h
      · cases h
        omega
      · cases h

theorem insert_size (l : Regions ω) (r : Region ω) : l.insert l.size r = l.add r := by
  rw [KList.insert, if_pos rfl]

/-- Both searches insert. -/
theorem findAvailableRegion_ok {size : U64} {l l' : Regions ω} {pos : Nat}
    (h : findAvailableRegion size l = some (pos, l')) :
    pos ≤ l.size ∧ ∃ b, l' = l.insert pos ⟨b, size, none⟩ := by
  rw [findAvailableRegion] at h
  split at h
  · next i b hloop =>
    cases h
    have hlt := findLoop_lt hloop
    rw [KList.length_toList] at hlt
    exact ⟨by omega, b, rfl⟩
  · next b _ =>
    split at h
    · cases h
      exact ⟨le_rfl, b, (insert_size l _).symm⟩
    · cases h

theorem allocateRegionAt_ok {base size : U64} {l l' : Regions ω} {pos : Nat}
    (h : allocateRegionAt base size l = some (pos, l')) :
    pos ≤ l.size ∧ l' = l.insert pos ⟨base, size, none⟩ := by
  rw [allocateRegionAt] at h
  split at h
  · next i hloop =>
    cases h
    have hlt := allocateAtLoop_lt hloop
    rw [KList.length_toList] at hlt
    exact ⟨by omega, rfl⟩
  · cases h
  · split at h
    · cases h
      exact ⟨le_rfl, (insert_size l _).symm⟩
    · cases h

/-- **A call that returns** has mapped an object into a new region, or has changed nothing. -/
theorem mapRegion_ok {ops : VmOps κ ω} {make : κ → Except Halt (ω × κ)} {size base : U64}
    {fixed : Bool} {l l' : Regions ω} {s s' : κ} {r : Option Nat}
    (hcall : mapRegion ops make size base fixed l s = .ok (r, l', s')) :
    (r = none ∧ l' = l ∧ s' = s) ∨
      ∃ pos b, pos ≤ l.size ∧ mapAt ops make pos b size l s = .ok (r, l', s') := by
  have hinto : ∀ {pos : Nat} {b : U64}, pos ≤ l.size →
      mapInto ops make pos (l.insert pos ⟨b, size, none⟩) s = .ok (r, l', s') →
      ∃ pos b, pos ≤ l.size ∧ mapAt ops make pos b size l s = .ok (r, l', s') := by
    intro pos b hpos hmap
    by_cases hb : b = 0#64
    · rw [mapInto, KList.mem_insert_self, if_pos hb] at hmap
      cases hmap
    · rw [mapInto_insert ops make pos hb] at hmap
      exact ⟨pos, b, hpos, hmap⟩
  rw [mapRegion] at hcall
  split at hcall
  · cases hcall
  split at hcall
  · cases hcall
  split at hcall
  · next pos l'' hat =>
    split at hat
    · obtain ⟨hpos, rfl⟩ := allocateRegionAt_ok hat
      rw [KList.modify_insert] at hcall
      exact .inr (hinto hpos hcall)
    · cases hat
  · rw [mapElsewhere] at hcall
    split at hcall
    · cases hcall
      exact .inl ⟨rfl, rfl, rfl⟩
    · split at hcall
      · next pos l'' hfind =>
        obtain ⟨hpos, b, rfl⟩ := findAvailableRegion_ok hfind
        exact .inr (hinto hpos hcall)
      · cases hcall

end Regions

/-! ## Runs -/

/-- The address spaces there are, with what they share; `held` counts the handles of each object
that are not in a region. -/
structure System where
  spaces : List AddressSpace
  store : ObjectStore
  held : Nat → Nat

/-- How many regions of some address spaces map an object. -/
def mappingsOf (spaces : List AddressSpace) (o : Nat) : Nat :=
  (spaces.map fun a ↦ a.mappings o).sum

/-- **Runs before anything is destroyed**: address spaces are made, and populated by any calls of
`map_vmo` and `allocate_anonymous_vmo` that return, and by page faults, in any order.  The objects
mapped are those someone has a handle of: program images, or what was there from the start, as the
frame buffer. -/
inductive SystemReaches (phys : PhysOf) (mal : Malloc) (garbage : VmObject)
    (chunks : Nat → List (U64 × Nat)) : System → Prop
  | start (store : ObjectStore) (hnext : ∀ o, store.next ≤ o → store.refs o = 0)
      (hcow : ∀ o, (store.objects o).cow = false) :
      SystemReaches phys mal garbage chunks ⟨[], store, store.refs⟩
  | create {x : System} {kernelPml4 : Nat → U64} {m : PageMap} {taken : List U64}
      {k k' : KernelMem} (cells : Nat → Region Nat) (hr : SystemReaches phys mal garbage chunks x)
      (hcall : createPageMap phys mal kernelPml4 x.store.mem = .ok (m, taken, k))
      (hmalloc : mallocPages phys (mal.requests 0 ++ mal.requests 1) k = .ok k')
      (hcells : ∀ i, (cells i).vmObject = none) :
      SystemReaches phys mal garbage chunks
        { x with
          spaces := x.spaces ++ [⟨Regions.empty cells, m⟩]
          store := { x.store with mem := k' } }
  | newImage {x : System} {base size : U64} {write : Bool} {s : ObjectStore}
      (hr : SystemReaches phys mal garbage chunks x)
      (hcall : x.store.newImage phys mal garbage base size write = .ok s) :
      SystemReaches phys mal garbage chunks
        { x with store := s, held := Function.update x.held x.store.next 1 }
  | drop {x : System} {o : Nat} {s : ObjectStore} (hr : SystemReaches phys mal garbage chunks x)
      (ho : 0 < x.held o) (hcall : x.store.release chunks (some o) = .ok s) :
      SystemReaches phys mal garbage chunks
        { x with store := s, held := Function.update x.held o (x.held o - 1) }
  | mapVmo {before after : List AddressSpace} {a a' : AddressSpace} {s s' : ObjectStore}
      {held : Nat → Nat} {o : Nat} {base : U64} {fixed : Bool} {r : Option Nat}
      (hr : SystemReaches phys mal garbage chunks ⟨before ++ a :: after, s, held⟩)
      (ho : 0 < held o)
      (hcall : a.mapVmo phys mal garbage chunks o base fixed s = .ok (r, a', s')) :
      SystemReaches phys mal garbage chunks ⟨before ++ a' :: after, s', held⟩
  | anonymous {before after : List AddressSpace} {a a' : AddressSpace} {s s' : ObjectStore}
      {held : Nat → Nat} {size base : U64} {fixed : Bool} {r : Option Nat}
      (hr : SystemReaches phys mal garbage chunks ⟨before ++ a :: after, s, held⟩)
      (hcall : a.allocateAnonymousVmo phys mal garbage chunks size base fixed s = .ok (r, a', s')) :
      SystemReaches phys mal garbage chunks ⟨before ++ a' :: after, s', held⟩
  | fault {before after : List AddressSpace} {a a' : AddressSpace} {s s' : ObjectStore}
      {held : Nat → Nat} {cr3 address : U64} {status : Int}
      (hr : SystemReaches phys mal garbage chunks ⟨before ++ a :: after, s, held⟩)
      (hcall : a.pageFault phys cr3 address s = .ok (status, a', s')) :
      SystemReaches phys mal garbage chunks ⟨before ++ a' :: after, s', held⟩

/-- **What every run keeps**: the counter of an object says how many regions and other handles
there are of it. -/
structure SystemInv (x : System) : Prop where
  refs_eq : ∀ o, x.store.refs o = mappingsOf x.spaces o + x.held o
  fresh : ∀ o, x.store.next ≤ o → x.store.refs o = 0
  not_cow : ∀ o, (x.store.objects o).cow = false
  cells_empty : ∀ a ∈ x.spaces, ∀ i, a.regions.size ≤ i → (a.regions.mem i).vmObject = none

theorem mappingsOf_mid (before after : List AddressSpace) (a : AddressSpace) (o : Nat) :
    mappingsOf (before ++ a :: after) o =
      a.mappings o + (mappingsOf before o + mappingsOf after o) := by
  simp only [mappingsOf, List.map_append, List.map_cons, List.sum_append, List.sum_cons]
  omega

namespace VmObject

/-- `hit` changes nothing of an object but its blocks. -/
theorem hit_cow {phys : PhysOf} {cr3 base offset : U64} {obj obj' : VmObject} {m m' : PageMap}
    {k k' : KernelMem} {status : Int}
    (hcall : obj.hit phys cr3 base offset m k = .ok (status, obj', m', k')) :
    obj'.cow = obj.cow := by
  rw [hit] at hcall
  simp only [] at hcall
  split at hcall
  · cases hcall
  split at hcall
  · obtain ⟨⟨m₁, taken, k₁⟩, -, hcall⟩ := bind_eq_ok.mp hcall
    cases hcall
    rfl
  split at hcall
  · cases hcall
  obtain ⟨⟨frame, a⟩, -, hcall⟩ := bind_eq_ok.mp hcall
  simp only [] at hcall
  split at hcall
  · cases hcall
  split at hcall
  · cases hcall
    rfl
  obtain ⟨⟨m₁, taken, k₁⟩, -, hcall⟩ := bind_eq_ok.mp hcall
  obtain ⟨k₂, -, hcall⟩ := bind_eq_ok.mp hcall
  cases hcall
  rfl

theorem hitAny_cow {phys : PhysOf} {cr3 base offset : U64} {obj obj' : VmObject} {m m' : PageMap}
    {k k' : KernelMem} {status : Int}
    (hcall : obj.hitAny phys cr3 base offset m k = .ok (status, obj', m', k')) :
    obj'.cow = obj.cow := by
  rw [hitAny] at hcall
  split at hcall
  · cases hcall
    rfl
  · exact hit_cow hcall

end VmObject

/-- What a call of an address space does with its objects. -/
theorem mapAt_vmOps {phys : PhysOf} {mal : Malloc} {garbage : VmObject}
    {make : VmState → Except Halt (Nat × VmState)} {pos : Nat} {b size : U64} {l l' : Regions Nat}
    {v v' : VmState} {r : Option Nat}
    (hcall : mapAt (vmOps phys mal garbage) make pos b size l v = .ok (r, l', v')) :
    ∃ o v₁, make v = .ok (o, v₁) ∧ r = some pos ∧ l' = l.insert pos ⟨b, size, some o⟩ ∧
      v'.next = v₁.next ∧ ∀ q, (v'.objects q).cow = (v₁.objects q).cow := by
  rw [mapAt] at hcall
  obtain ⟨⟨o, v₁⟩, hmake, hcall⟩ := bind_eq_ok.mp hcall
  obtain ⟨v₂, hmap, hcall⟩ := bind_eq_ok.mp hcall
  cases hcall
  simp only [vmOps] at hmap
  obtain ⟨⟨m, k⟩, -, hmap⟩ := bind_eq_ok.mp hmap
  cases hmap
  refine ⟨o, v₁, hmake, rfl, rfl, rfl, fun q ↦ ?_⟩
  by_cases hq : q = o
  · rw [hq]
    simp only [Function.update_self]
  · simp only [Function.update_of_ne hq]

namespace SystemInv

variable {before after : List AddressSpace} {a : AddressSpace} {s : ObjectStore} {held : Nat → Nat}

/-- An object in a region has a handle. -/
theorem region_held (hx : SystemInv ⟨before ++ a :: after, s, held⟩) {j : Nat}
    (hj : j < a.regions.size) {o : Nat} (ho : (a.regions.mem j).vmObject = some o) :
    1 ≤ s.refs o := by
  have hmem : a.regions.mem j ∈ a.regions.toList :=
    List.mem_map.mpr ⟨j, List.mem_range.mpr hj, rfl⟩
  have hcount : 0 < a.mappings o := List.countP_pos_iff.mpr ⟨_, hmem, by simpa using ho⟩
  have hrefs := hx.refs_eq o
  rw [mappingsOf_mid] at hrefs
  have hrefs' : s.refs o = a.mappings o + (mappingsOf before o + mappingsOf after o) +
    held o := hrefs
  omega

/-- A region more, for an object of any number that has been given out. -/
theorem map_region (hx : SystemInv ⟨before ++ a :: after, s, held⟩) {pos o : Nat} {b size : U64}
    (hpos : pos ≤ a.regions.size) {v : VmState} (hnext : s.next ≤ v.next) (ho : o < v.next)
    (hcow : ∀ q, (v.objects q).cow = false) :
    SystemInv ⟨before ++ ⟨a.regions.insert pos ⟨b, size, some o⟩, v.map⟩ :: after,
      { AddressSpace.withVm v s with refs := ObjectStore.plus s.refs (some o) }, held⟩ where
  refs_eq := by
    intro q
    have hrefs := hx.refs_eq q
    rw [mappingsOf_mid] at hrefs ⊢
    have hrefs' : s.refs q = a.mappings q + (mappingsOf before q + mappingsOf after q) + held q :=
      hrefs
    have hcount : (⟨a.regions.insert pos ⟨b, size, some o⟩, v.map⟩ : AddressSpace).mappings q =
        (if o = q then 1 else 0) + a.mappings q := by
      rw [AddressSpace.mappings, KList.toList_insert a.regions hpos,
        (List.perm_insertIdx _ _ (by rw [KList.length_toList]; exact hpos)).countP_eq,
        List.countP_cons, AddressSpace.mappings, Nat.add_comm]
      simp only [Option.some.injEq, decide_eq_true_eq]
    have hplus : ObjectStore.plus s.refs (some o) q = (if o = q then 1 else 0) + s.refs q := by
      rw [ObjectStore.plus]
      split
      · next heq => rw [heq, Function.update_self, Nat.add_comm]
      · next hne => rw [Function.update_of_ne (Ne.symm hne), Nat.zero_add]
    show ObjectStore.plus s.refs (some o) q = _ + held q
    rw [hplus, hcount, hrefs']
    omega
  fresh := by
    intro q hq
    have hq' : v.next ≤ q := hq
    show ObjectStore.plus s.refs (some o) q = 0
    rw [ObjectStore.plus, Function.update_of_ne (by omega)]
    exact hx.fresh q (hnext.trans hq')
  not_cow := hcow
  cells_empty := by
    intro c hc i hi
    rcases List.mem_append.mp hc with hc | hc
    · exact hx.cells_empty c (List.mem_append_left _ hc) i hi
    rcases List.mem_cons.mp hc with rfl | hc
    · have hold := hx.cells_empty a (List.mem_append_right _ List.mem_cons_self)
      have hi' : a.regions.size + 1 ≤ i := by
        rw [← KList.size_insert a.regions pos ⟨b, size, some o⟩]
        exact hi
      show ((a.regions.insert pos ⟨b, size, some o⟩).mem i).vmObject = none
      rw [KList.mem_insert_of_size_lt _ hpos _ (by omega)]
      exact hold i (by omega)
    · exact hx.cells_empty c (List.mem_append_right _ (List.mem_cons_of_mem _ hc)) i hi

/-- **`map_vmo`** takes one reference, if it maps the object. -/
theorem mapVmo {phys : PhysOf} {mal : Malloc} {garbage : VmObject}
    {chunks : Nat → List (U64 × Nat)} (hx : SystemInv ⟨before ++ a :: after, s, held⟩) {o : Nat}
    (ho : 0 < held o) {base : U64} {fixed : Bool} {r : Option Nat} {a' : AddressSpace}
    {s' : ObjectStore}
    (hcall : a.mapVmo phys mal garbage chunks o base fixed s = .ok (r, a', s')) :
    SystemInv ⟨before ++ a' :: after, s', held⟩ := by
  rw [AddressSpace.mapVmo] at hcall
  obtain ⟨⟨pos, l, v⟩, hmap, hcall⟩ := bind_eq_ok.mp hcall
  obtain ⟨s₁, hhandles, hcall⟩ := bind_eq_ok.mp hcall
  cases hcall
  have hlt : o < s.next := by
    by_contra hge
    have hzero := hx.fresh o (Nat.le_of_not_lt hge)
    have hrefs := hx.refs_eq o
    simp only [] at hzero hrefs
    omega
  rcases mapRegion_ok hmap with ⟨rfl, rfl, rfl⟩ | ⟨pos, b, hpos, hat⟩
  · cases hhandles
    exact hx
  · obtain ⟨o', v₁, hmake, rfl, rfl, hnext, hcow⟩ := mapAt_vmOps hat
    cases hmake
    rw [ObjectStore.mapHandles_eq chunks o (AddressSpace.withVm v s) hpos
      (hx.cells_empty a (List.mem_append_right _ List.mem_cons_self) _ le_rfl)
      fun j hj q hq ↦ hx.region_held hj hq] at hhandles
    cases hhandles
    exact hx.map_region hpos hnext.ge (hlt.trans_le hnext.ge) fun q ↦ (hcow q).trans (hx.not_cow q)

/-- **`allocate_anonymous_vmo`** makes an object with one reference. -/
theorem anonymous {phys : PhysOf} {mal : Malloc} {garbage : VmObject}
    {chunks : Nat → List (U64 × Nat)} (hx : SystemInv ⟨before ++ a :: after, s, held⟩)
    {size base : U64} {fixed : Bool} {r : Option Nat} {a' : AddressSpace} {s' : ObjectStore}
    (hcall : a.allocateAnonymousVmo phys mal garbage chunks size base fixed s = .ok (r, a', s')) :
    SystemInv ⟨before ++ a' :: after, s', held⟩ := by
  rw [AddressSpace.allocateAnonymousVmo] at hcall
  obtain ⟨⟨pos, l, v⟩, hmap, hcall⟩ := bind_eq_ok.mp hcall
  obtain ⟨s₁, hhandles, hcall⟩ := bind_eq_ok.mp hcall
  cases hcall
  rcases mapRegion_ok hmap with ⟨rfl, rfl, rfl⟩ | ⟨pos, b, hpos, hat⟩
  · cases hhandles
    exact hx
  · obtain ⟨o, v₁, hmake, rfl, rfl, hnext, hcow⟩ := mapAt_vmOps hat
    simp only [vmOps] at hmake
    obtain ⟨k, -, hmake⟩ := bind_eq_ok.mp hmake
    cases hmake
    have hnext' : v.next = s.next + 1 := hnext
    rw [ObjectStore.mapHandles_eq chunks s.next (AddressSpace.withVm v s) hpos
      (hx.cells_empty a (List.mem_append_right _ List.mem_cons_self) _ le_rfl)
      fun j hj q hq ↦ hx.region_held hj hq] at hhandles
    cases hhandles
    refine hx.map_region hpos (by omega) (by show s.next < v.next; omega) fun q ↦ (hcow q).trans ?_
    show (Function.update s.objects s.next _ q).cow = false
    by_cases hq : q = s.next
    · rw [hq, Function.update_self]
      rfl
    · rw [Function.update_of_ne hq]
      exact hx.not_cow q

/-- A page fault takes none. -/
theorem fault {phys : PhysOf} (hx : SystemInv ⟨before ++ a :: after, s, held⟩) {cr3 address : U64}
    {status : Int} {a' : AddressSpace} {s' : ObjectStore}
    (hcall : a.pageFault phys cr3 address s = .ok (status, a', s')) :
    SystemInv ⟨before ++ a' :: after, s', held⟩ := by
  rw [AddressSpace.pageFault] at hcall
  split at hcall
  · cases hcall
    exact hx
  next pos _ =>
  split at hcall
  · cases hcall
    exact hx
  next o _ =>
  obtain ⟨⟨status, obj, m, k⟩, hhit, hcall⟩ := bind_eq_ok.mp hcall
  cases hcall
  refine ⟨fun q ↦ ?_, hx.fresh, fun q ↦ ?_, fun c hc i hi ↦ ?_⟩
  · have hrefs := hx.refs_eq q
    rw [mappingsOf_mid] at hrefs ⊢
    exact hrefs
  · by_cases hq : q = o
    · rw [hq]
      simp only [Function.update_self]
      exact (VmObject.hitAny_cow hhit).trans (hx.not_cow o)
    · simp only [Function.update_of_ne hq]
      exact hx.not_cow q
  · rcases List.mem_append.mp hc with hc | hc
    · exact hx.cells_empty c (List.mem_append_left _ hc) i hi
    rcases List.mem_cons.mp hc with rfl | hc
    · exact hx.cells_empty a (List.mem_append_right _ List.mem_cons_self) i hi
    · exact hx.cells_empty c (List.mem_append_right _ (List.mem_cons_of_mem _ hc)) i hi

end SystemInv

/-- **Every run** keeps count. -/
theorem systemReaches_inv {phys : PhysOf} {mal : Malloc} {garbage : VmObject}
    {chunks : Nat → List (U64 × Nat)} {x : System} (hr : SystemReaches phys mal garbage chunks x) :
    SystemInv x := by
  induction hr with
  | start store hnext hcow => exact ⟨fun o ↦ (Nat.zero_add _).symm, hnext, hcow, by simp⟩
  | @create x kernelPml4 m taken k k' cells _ _ _ hcells ih =>
    refine ⟨fun o ↦ ?_, ih.fresh, ih.not_cow, fun a ha i hi ↦ ?_⟩
    · have hnone : AddressSpace.mappings ⟨Regions.empty cells, m⟩ o = 0 := rfl
      rw [mappingsOf, List.map_append, List.sum_append, List.map_singleton, List.sum_singleton,
        hnone, Nat.add_zero]
      exact ih.refs_eq o
    · rcases List.mem_append.mp ha with ha | ha
      · exact ih.cells_empty a ha i hi
      · obtain rfl := List.mem_singleton.mp ha
        exact hcells i
  | @newImage x base size write s _ hcall ih =>
    rw [ObjectStore.newImage] at hcall
    split at hcall
    · cases hcall
    obtain ⟨k₁, -, hcall⟩ := bind_eq_ok.mp hcall
    obtain ⟨⟨mapping, heap⟩, -, hcall⟩ := bind_eq_ok.mp hcall
    obtain ⟨⟨blocks, k₂⟩, -, hcall⟩ := bind_eq_ok.mp hcall
    obtain ⟨k₃, -, hcall⟩ := bind_eq_ok.mp hcall
    cases hcall
    refine ⟨fun o ↦ ?_, fun o ho ↦ ?_, fun o ↦ ?_, ih.cells_empty⟩
    · have hrefs := ih.refs_eq o
      by_cases hq : o = x.store.next
      · have hzero := ih.fresh o hq.ge
        simp only [hq, Function.update_self] at hrefs hzero ⊢
        omega
      · simp only [Function.update_of_ne hq]
        exact hrefs
    · have ho' : x.store.next + 1 ≤ o := ho
      simp only [Function.update_of_ne (show o ≠ x.store.next by omega)]
      exact ih.fresh o (by omega)
    · by_cases hq : o = x.store.next
      · simp only [hq, Function.update_self]
      · simp only [Function.update_of_ne hq]
        exact ih.not_cow o
  | @drop x o s _ ho hcall ih =>
    have hrefs := ih.refs_eq o
    have hs : s.refs = Function.update x.store.refs o (x.store.refs o - 1) ∧
        s.next = x.store.next ∧ s.objects = x.store.objects := by
      rw [ObjectStore.release] at hcall
      split at hcall
      · next hone =>
        obtain ⟨k₁, -, hcall⟩ := bind_eq_ok.mp hcall
        obtain ⟨k₂, -, hcall⟩ := bind_eq_ok.mp hcall
        cases hcall
        exact ⟨by rw [hone], rfl, rfl⟩
      · cases hcall
        exact ⟨rfl, rfl, rfl⟩
    obtain ⟨hsrefs, hsnext, hsobjects⟩ := hs
    refine ⟨fun q ↦ ?_, fun q hq ↦ ?_, fun q ↦ ?_, ih.cells_empty⟩
    · simp only [hsrefs]
      by_cases hq : q = o
      · simp only [hq, Function.update_self]
        omega
      · simp only [Function.update_of_ne hq]
        exact ih.refs_eq q
    · have hq' : x.store.next ≤ q := hsnext ▸ hq
      have hzero := ih.fresh q hq'
      simp only [hsrefs]
      by_cases hqo : q = o
      · rw [hqo] at hzero
        simp only [hqo, Function.update_self]
        omega
      · simp only [Function.update_of_ne hqo]
        exact hzero
    · simp only [hsobjects]
      exact ih.not_cow q
  | mapVmo _ ho hcall ih => exact ih.mapVmo ho hcall
  | anonymous _ hcall ih => exact ih.anonymous hcall
  | fault _ hcall ih => exact ih.fault hcall

/-! ## What is released -/

/-- **What destroying address spaces should make of the objects**: each of their regions gives up
its reference; an object that has no other handles is deleted, and the blocks it had are free
again. -/
structure Released (spaces : List AddressSpace) (s s' : ObjectStore) : Prop where
  refs_eq : ∀ o, s'.refs o + mappingsOf spaces o = s.refs o
  deleted : ∀ o, 0 < mappingsOf spaces o → s.refs o = mappingsOf spaces o → o ∈ s'.deleted
  blocks_free : ∀ o, 0 < mappingsOf spaces o → s.refs o = mappingsOf spaces o →
    ∀ i < ((s.objects o).size >>> 12).toNat, (s.objects o).physicalBlocks i ≠ 0#32 →
      ((s.objects o).physicalBlocks i).toNat ∈ s'.mem.blocks.freeBlocks

theorem mappingsOf_eq_zero_iff {spaces : List AddressSpace} :
    (∀ o, mappingsOf spaces o = 0) ↔ ∀ a ∈ spaces, a.MapsNothing := by
  constructor
  · intro h a ha r hr
    by_contra hne
    obtain ⟨o, ho⟩ := Option.ne_none_iff_exists'.mp hne
    have hpos : 0 < a.mappings o := List.countP_pos_iff.mpr ⟨r, hr, by simpa using ho⟩
    obtain ⟨before, after, rfl⟩ := List.append_of_mem ha
    have hzero := h o
    rw [mappingsOf_mid] at hzero
    omega
  · intro h o
    refine List.sum_eq_zero fun n hn ↦ ?_
    obtain ⟨a, ha, rfl⟩ := List.mem_map.mp hn
    refine List.countP_eq_zero.mpr fun r hr ↦ ?_
    rw [h a ha r hr]
    simp

/-- If no counter changes, nothing is released, unless there was nothing to release. -/
theorem released_iff {spaces : List AddressSpace} {s s' : ObjectStore} (hrefs : s'.refs = s.refs) :
    Released spaces s s' ↔ ∀ a ∈ spaces, a.MapsNothing := by
  rw [← mappingsOf_eq_zero_iff]
  constructor
  · intro h o
    have hsum := h.refs_eq o
    rw [hrefs] at hsum
    omega
  · intro h
    exact ⟨fun o ↦ by rw [hrefs, h o, Nat.add_zero], fun o hpos ↦ absurd (h o) (by omega),
      fun o hpos ↦ absurd (h o) (by omega)⟩

namespace AddressSpace

/-- The destructors change no counter. -/
theorem destroy_refs {frees : Frees} {a : AddressSpace} {s s' : ObjectStore}
    (hcall : a.destroy frees s = .ok s') : s'.refs = s.refs := by
  rw [destroy] at hcall
  obtain ⟨⟨given, k⟩, -, hcall⟩ := bind_eq_ok.mp hcall
  obtain ⟨k', -, hcall⟩ := bind_eq_ok.mp hcall
  cases hcall
  rfl

theorem destroy_deleted {frees : Frees} {a : AddressSpace} {s s' : ObjectStore}
    (hcall : a.destroy frees s = .ok s') : s'.deleted = s.deleted := by
  rw [destroy] at hcall
  obtain ⟨⟨given, k⟩, -, hcall⟩ := bind_eq_ok.mp hcall
  obtain ⟨k', -, hcall⟩ := bind_eq_ok.mp hcall
  cases hcall
  rfl

theorem collect_refs : ∀ {dead : List (AddressSpace × Frees)} {s s' : ObjectStore},
    collect dead s = .ok s' → s'.refs = s.refs
  | [], s, s', hcall => by
    cases hcall
    rfl
  | (a, frees) :: dead, s, s', hcall => by
    rw [collect] at hcall
    obtain ⟨s₁, hdestroy, hcall⟩ := bind_eq_ok.mp hcall
    obtain ⟨k, -, hcall⟩ := bind_eq_ok.mp hcall
    have hrest := collect_refs hcall
    exact hrest.trans (show s₁.refs = s.refs from destroy_refs hdestroy)

end AddressSpace

/-- **What the destruction of an address space releases**, after any run.  The counter of an object
says how many regions and other handles there are of it; and yet what destroying an address space,
or collecting dead processes, should release is released if and only if there is nothing to release:
no region of them has an object. -/
theorem destroy_releases_iff {phys : PhysOf} {mal : Malloc} {garbage : VmObject}
    {chunks : Nat → List (U64 × Nat)} {x : System} (hr : SystemReaches phys mal garbage chunks x) :
    (∀ o, x.store.refs o = mappingsOf x.spaces o + x.held o) ∧
    (∀ a ∈ x.spaces, ∀ frees s', a.destroy frees x.store = .ok s' →
      (Released [a] x.store s' ↔ a.MapsNothing)) ∧
    ∀ dead : List (AddressSpace × Frees), (∀ p ∈ dead, p.1 ∈ x.spaces) →
      ∀ s', AddressSpace.gc dead x.store = .ok s' →
        (Released (dead.map Prod.fst) x.store s' ↔ ∀ p ∈ dead, p.1.MapsNothing) := by
  refine ⟨(systemReaches_inv hr).refs_eq, fun a _ frees s' hcall ↦ ?_, fun dead _ s' hcall ↦ ?_⟩
  · rw [released_iff (AddressSpace.destroy_refs hcall), List.forall_mem_singleton]
  · rw [released_iff (AddressSpace.collect_refs hcall), List.forall_mem_map]

/-! ## The destructor returns -/

/-- Freeing one page leaves the translation of any page of another block. -/
theorem translate_free_other {h₀ h : KernelHeap} {v w : U64} {f g : Nat}
    (hv : h₀.translate v = some f) (hw : h₀.translate w = some g) (hne : f ≠ g)
    (hw' : h.translate w = some g) : (kernelFree4kPages 1 v h).translate w = some g := by
  obtain ⟨hdir, -, hrest⟩ := kernelFree4kPages_spec 1 v h
  have hindex : heapIndex w ≠ heapIndex v := by
    intro heq
    have hf := (translate_eq_some.mp hv).2.2.2.2.2
    have hg := (translate_eq_some.mp hw).2.2.2.2.2
    rw [heq] at hg
    exact hne (hf.symm.trans hg)
  have hentry := hrest (heapIndex w) fun j hj ↦ by
    rw [Nat.lt_one_iff.mp hj, pageAt_zero]
    exact hindex
  exact translate_mono hw' (fun d _ ↦ congrFun hdir d) fun _ ↦ hentry

theorem freePhysicalBlock_ok {addr : U64} (h : 4096 ≤ addr.toNat) (a : PhysAllocator) :
    ∃ a', a.freePhysicalBlock addr = .ok a' := by
  have hne : (addr >>> 12).toNat ≠ 0 := by
    rw [toNat_shiftRight_12]
    omega
  rw [freePhysicalBlock, if_neg hne]
  exact ⟨_, rfl⟩

/-- The directories `destroy_page_map` has yet to look at are still mapped. -/
structure Standing (k₀ : KernelMem) (m : PageMap) (k : KernelMem) (i j : Nat) : Prop
    extends Dying k₀ m k i j where
  dir_ptr : ∀ d < 512, i ≤ d → k.heap.translate (m.pageDirs d) = some (m.dirFrame d)
  pdpt_ptr : k.heap.translate m.pdpt = some m.pdptFrame

section

variable {k₀ : KernelMem} {m : PageMap}

/-- Freeing a page that holds none of them. -/
theorem Standing.free {k : KernelMem} {i j : Nat} (hm : MapInv k₀ m)
    (hptr : k₀.heap.translate m.pdpt = some m.pdptFrame) (hs : Standing k₀ m k i j) {i' : Nat}
    (hi : i ≤ i') {v : U64} {x : Node} (hx : m.Live x)
    (hv : k₀.heap.translate v = some (nodeFrame k₀ m x)) (hpdpt : x ≠ .pdpt)
    (hdir : ∀ d, i' ≤ d → x ≠ .dir d) :
    (∀ d < 512, i' ≤ d → (kernelFree4kPages 1 v k.heap).translate (m.pageDirs d) =
        some (m.dirFrame d)) ∧
      (kernelFree4kPages 1 v k.heap).translate m.pdpt = some m.pdptFrame := by
  refine ⟨fun d hd hle ↦ ?_, ?_⟩
  · exact translate_free_other hv (hm.dir_ptr d hd)
      (fun heq ↦ hdir d hle (hm.distinct x (.dir d) hx hd heq)) (hs.dir_ptr d hd (hi.trans hle))
  · exact translate_free_other hv hptr
      (fun heq ↦ hpdpt (hm.distinct x .pdpt hx trivial heq)) hs.pdpt_ptr

theorem destroyTables_returns (hm : MapInv k₀ m)
    (hptr : k₀.heap.translate m.pdpt = some m.pdptFrame) {i : Nat} (hi : i < 512) :
    ∀ {n j : Nat} {k : KernelMem}, j + n = 512 → Standing k₀ m k i j →
      ∃ given k', destroyTables m i n j k = .ok (given, k') ∧ Standing k₀ m k' i 512
  | 0, j, k, hj, hs => by
    obtain rfl : j = 512 := hj
    exact ⟨[], k, rfl, hs⟩
  | n + 1, j, k, hj, hs => by
    have hdir := hs.dir_ptr i hi le_rfl
    have hzero := store_eq hdir j 0#64
    have hentry := hs.rest i hi j (.inr ⟨rfl, le_rfl⟩)
    rw [destroyTables, load_eq hdir]
    simp only [Except.bind, bind]
    rw [hentry]
    split
    · next hp =>
      have hlive : m.Live (.table i j) :=
        ⟨hi, by omega, (hm.present_iff i hi j (by omega)).mp hp⟩
      split
      · exact destroyTables_returns hm hptr hi (by omega)
          ⟨⟨hs.reflects, fun d hd l hl ↦ hs.rest d hd l (by omega)⟩, hs.dir_ptr, hs.pdpt_ptr⟩
      · next hlarge =>
        obtain ⟨blocks, hfree⟩ := freePhysicalBlock_ok (Nat.le_of_not_lt hlarge) k.blocks
        obtain ⟨hdirs, hpdpt⟩ := hs.free hm hptr le_rfl hlive
          (hm.table_ptr i hi j (by omega) hlive.2.2) (by simp) (fun d _ ↦ by simp)
        have hstore := store_eq (k := { k with
          blocks := blocks
          heap := kernelFree4kPages 1 (m.pageTables i j) k.heap }) (hdirs i hi le_rfl) j 0#64
        have hd : Dying k₀ m { k with
            blocks := blocks
            heap := kernelFree4kPages 1 (m.pageTables i j) k.heap } i j :=
          ⟨fun virt f hf ↦ hs.reflects _ _ (translate_of_free hf), hs.rest⟩
        obtain ⟨given, k', hcall, hs'⟩ := destroyTables_returns hm hptr hi (n := n) (by omega)
          ⟨hd.store hm hi hstore, hdirs, hpdpt⟩
        refine ⟨(getPageFrame (k₀.ram (m.dirFrame i) j)).setWidth 64 :: given, k', ?_, hs'⟩
        simp only [hfree, hstore, hcall, pure, Except.pure]
    · simp only [hzero]
      exact destroyTables_returns hm hptr hi (by omega)
        ⟨hs.toDying.store hm hi hzero, hs.dir_ptr, hs.pdpt_ptr⟩

theorem destroyDir_returns (hm : MapInv k₀ m)
    (hptr : k₀.heap.translate m.pdpt = some m.pdptFrame) {i : Nat} (hi : i < 512) {k : KernelMem}
    (hs : Standing k₀ m k i 0) :
    ∃ given k', destroyDir (fun _ ↦ []) m i k = .ok (given, k') ∧
      Standing k₀ m k' (i + 1) 0 := by
  have hskip : Standing k₀ m k (i + 1) 0 :=
    ⟨⟨hs.reflects, fun d hd l hl ↦ hs.rest d hd l (by omega)⟩,
      fun d hd hle ↦ hs.dir_ptr d hd (by omega), hs.pdpt_ptr⟩
  rw [destroyDir]
  split
  · exact ⟨[], k, rfl, hskip⟩
  split
  · exact ⟨[], k, rfl, hskip⟩
  next hlarge =>
  obtain ⟨given, k₁, htables, hs₁⟩ := destroyTables_returns hm hptr hi (Nat.zero_add 512) hs
  have hstore := store_eq hs₁.pdpt_ptr i 0#64
  obtain ⟨blocks, hfree⟩ := freePhysicalBlock_ok (Nat.le_of_not_lt hlarge) k₁.blocks
  obtain ⟨hdirs, hpdpt⟩ := hs₁.free hm hptr (Nat.le_succ i) (x := .dir i) hi
    (hm.dir_ptr i hi) (by simp) fun d hle heq ↦ by
      cases heq
      omega
  let k₂ : KernelMem :=
    { blocks := blocks
      heap := kernelFree4kPages 1 (m.pageDirs i) k₁.heap
      ram := Function.update k₁.ram m.pdptFrame (Function.update (k₁.ram m.pdptFrame) i 0#64) }
  refine ⟨given ++ [m.pageDirsPhys i], k₂, ?_, ⟨fun virt f hf ↦ ?_, fun d hd l hl ↦ ?_⟩, hdirs,
    hpdpt⟩
  · simp only [htables, freeChunks, hstore, hfree, Except.bind, bind, pure, Except.pure]
    rfl
  · exact hs₁.reflects _ _ (translate_of_free hf)
  · have hne : m.dirFrame d ≠ m.pdptFrame := by
      intro heq
      cases hm.distinct (.dir d) .pdpt hd trivial heq
    exact (congrFun (Function.update_of_ne hne _ _) l).trans (hs₁.rest d hd l (by omega))

theorem destroyDirs_returns (hm : MapInv k₀ m)
    (hptr : k₀.heap.translate m.pdpt = some m.pdptFrame) : ∀ {n i : Nat} {k : KernelMem},
      i + n = 512 → Standing k₀ m k i 0 →
      ∃ given k', destroyDirs (fun _ ↦ []) m n i k = .ok (given, k')
  | 0, _, k, _, _ => ⟨[], k, rfl⟩
  | n + 1, i, k, hi, hs => by
    obtain ⟨given, k₁, hdir, hs₁⟩ := destroyDir_returns hm hptr (by omega) hs
    obtain ⟨given', k₂, hdirs⟩ := destroyDirs_returns hm hptr (n := n) (by omega) hs₁
    refine ⟨given ++ given', k₂, ?_⟩
    simp only [destroyDirs, hdir, hdirs, Except.bind, bind, pure, Except.pure]

/-- **`destroy_page_map` returns**, if `free` has nothing to give up. -/
theorem destroyPageMap_returns {k : KernelMem} (hm : MapInv k m)
    (hptr : k.heap.translate m.pdpt = some m.pdptFrame) (hpdpt : m.pdptFrame ≠ 0) :
    ∃ given k', destroyPageMap (fun _ ↦ []) m k = .ok (given, k') := by
  have hs : Standing k m k 0 0 :=
    ⟨⟨fun _ _ h ↦ h, fun _ _ _ _ ↦ rfl⟩, fun d hd _ ↦ hm.dir_ptr d hd, hptr⟩
  obtain ⟨given, k₁, hdirs⟩ := destroyDirs_returns hm hptr (Nat.zero_add 512) hs
  have hlarge : 4096 ≤ m.pdptPhys.toNat := by
    rw [pdptFrame, toNat_shiftRight_12] at hpdpt
    omega
  obtain ⟨blocks, hfree⟩ := freePhysicalBlock_ok hlarge k₁.blocks
  refine ⟨given ++ [m.pdptPhys], { k₁ with blocks := blocks }, ?_⟩
  simp only [destroyPageMap, hdirs, hfree, Except.bind, bind, pure, Except.pure]

end

/-! ## A first process -/

/-- Cells without anything in them. -/
def noCells : Nat → Region Nat := fun _ ↦ ⟨0#64, 0#64, none⟩

/-- A machine of four megabytes that has made no objects yet. -/
def firstStore : ObjectStore :=
  ⟨fourMegMem fun _ _ ↦ 0#64, fun _ ↦ emptyObject, 0, fun _ ↦ 0, []⟩

/-- An empty address space finds room for a page right behind the first. -/
theorem findAvailableRegion_empty (cells : Nat → Region Nat) :
    findAvailableRegion 0x1000#64 (Regions.empty cells) =
      some (0, (Regions.empty cells).insert 0 ⟨0x1000#64, 0x1000#64, none⟩) := by
  rfl

/-- Nothing for liballoc to give up. -/
def noFrees : Frees := ⟨[], fun _ ↦ [], []⟩

theorem AddressSpace.destroy_noFrees {a : AddressSpace} {s : ObjectStore}
    (hm : MapInv s.mem a.pageMap)
    (hptr : s.mem.heap.translate a.pageMap.pdpt = some a.pageMap.pdptFrame)
    (hpdpt : a.pageMap.pdptFrame ≠ 0) : ∃ s', a.destroy noFrees s = .ok s' := by
  obtain ⟨given, k, hdestroy⟩ := destroyPageMap_returns hm hptr hpdpt
  refine ⟨{ s with mem := k, objects := removeUses a.regions.toList s.objects }, ?_⟩
  simp only [destroy, noFrees, hdestroy, freeChunks, Except.bind, bind, pure, Except.pure]

/-- **One page is all it takes**: a new address space in which `allocate_anonymous_vmo` has mapped
one page, and which can be destroyed. -/
theorem first_page_reached : ∃ a s, SystemReaches (fun _ ↦ 0#64) quietMalloc emptyObject
    (fun _ ↦ []) ⟨[a], s, fun _ ↦ 0⟩ ∧ a.mappings 0 = 1 ∧ ∃ s', a.destroy noFrees s = .ok s' := by
  obtain ⟨m, taken, k, hcreate, hs⟩ := fourMegMem_create fun _ _ ↦ 0#64
  have hk := (fourMegMem_supply fun _ _ ↦ 0#64).toKernelInv
  have hc := (createPageMap_spec hk hcreate).2
  have hr : SystemReaches (fun _ ↦ 0#64) quietMalloc emptyObject (fun _ ↦ [])
      ⟨[] ++ ⟨Regions.empty noCells, m⟩ :: [], { firstStore with mem := k }, fun _ ↦ 0⟩ :=
    .create noCells (.start firstStore (fun _ _ ↦ rfl) fun _ ↦ rfl) hcreate rfl fun _ ↦ rfl
  obtain ⟨table, k', hmap, hm', hext, -, -⟩ := mapAllocatedBlocks_first (fun _ ↦ 0#64) hc.inv
    (hc.no_tables 0 0) (hs.mono (by decide)) { emptyObject with useCount := 1#32 }
  have hregions : ∃ v, Regions.allocateAnonymousVmo
      (vmOps (fun _ ↦ 0#64) quietMalloc emptyObject) 0x1000#64 0#64 false (Regions.empty noCells)
      (AddressSpace.vmState ⟨Regions.empty noCells, m⟩ { firstStore with mem := k }) =
      .ok (some 0, (Regions.empty noCells).insert 0 ⟨0x1000#64, 0x1000#64, some 0⟩, v) ∧
      v.map = m.setPageTable 0 0 table ∧ v.mem = k' := by
    rw [Regions.allocateAnonymousVmo, mapRegion, if_neg (by decide), if_neg (by decide),
      if_neg (by decide)]
    simp only []
    rw [mapElsewhere, if_neg (by decide), findAvailableRegion_empty]
    simp only []
    rw [mapInto_insert _ _ _ (by decide), mapAt]
    have hobj : { VmObject.anonymous 0x1000#64 emptyObject with
        useCount := (VmObject.anonymous 0x1000#64 emptyObject).useCount + 1 } =
        VmObject.anonymous 0x1000#64 { emptyObject with useCount := 1#32 } := rfl
    simp only [vmOps, AddressSpace.vmState, quietMalloc, mallocPages, List.append_nil, Except.bind,
      bind, pure, Except.pure, firstStore, Function.update_self, hobj, hmap]
    exact ⟨_, rfl, rfl, rfl⟩
  obtain ⟨v, hregions, hvmap, hvmem⟩ := hregions
  have hcall : AddressSpace.allocateAnonymousVmo (fun _ ↦ 0#64) quietMalloc emptyObject
      (fun _ ↦ []) 0x1000#64 0#64 false ⟨Regions.empty noCells, m⟩ { firstStore with mem := k } =
      .ok (some 0, ⟨(Regions.empty noCells).insert 0 ⟨0x1000#64, 0x1000#64, some 0⟩, v.map⟩,
        { AddressSpace.withVm v { firstStore with mem := k } with
          refs := ObjectStore.plus (fun _ ↦ 0) (some 0) }) := by
    rw [AddressSpace.allocateAnonymousVmo, hregions]
    simp only [Except.bind, bind]
    rw [ObjectStore.mapHandles_eq (fun _ ↦ []) _ _ (Nat.zero_le _) rfl
      fun j hj ↦ absurd hj (Nat.not_lt_zero j)]
    rfl
  refine ⟨_, _, .anonymous hr hcall, rfl, AddressSpace.destroy_noFrees ?_ ?_ ?_⟩
  · show MapInv v.mem v.map
    rw [hvmap, hvmem]
    exact hm'
  · show v.mem.heap.translate v.map.pdpt = some v.map.pdptFrame
    rw [hvmap, hvmem]
    exact hext.translate_mono _ _ hc.pdpt_ptr
  · show v.map.pdptFrame ≠ 0
    rw [hvmap]
    have hfree := (createPageMap_fresh hk hcreate).2.1 ⟨.pdpt, trivial, rfl⟩
    have hpos : 32 ≤ m.pdptFrame := hfree.1
    show m.pdptFrame ≠ 0
    omega

theorem destroy_releases_iff_first_page : ∃ a s s',
    SystemReaches (fun _ ↦ 0#64) quietMalloc emptyObject (fun _ ↦ []) ⟨[a], s, fun _ ↦ 0⟩ ∧
      s.refs 0 = 1 ∧ a.destroy noFrees s = .ok s' ∧ (Released [a] s s' ↔ a.MapsNothing) := by
  obtain ⟨a, s, hr, hone, s', hcall⟩ := first_page_reached
  obtain ⟨hrefs, hdestroy, -⟩ := destroy_releases_iff hr
  refine ⟨a, s, s', hr, ?_, hcall, hdestroy a (List.mem_singleton_self a) noFrees s' hcall⟩
  have hcount := hrefs 0
  simp only [mappingsOf, List.map_singleton, List.sum_singleton, hone] at hcount
  exact hcount

/-- **An address space with one page leaks it.**  The page's object has one reference, that of the
region.  The address space is destroyed, and the object has that reference still; it is never
deleted. -/
theorem destroyed_space_keeps_object : ∃ a s s',
    SystemReaches (fun _ ↦ 0#64) quietMalloc emptyObject (fun _ ↦ []) ⟨[a], s, fun _ ↦ 0⟩ ∧
      a.mappings 0 = 1 ∧ s.refs 0 = 1 ∧ a.destroy noFrees s = .ok s' ∧ s'.refs 0 = 1 ∧
      s'.deleted = s.deleted ∧ ¬Released [a] s s' := by
  obtain ⟨a, s, hr, hone, s', hcall⟩ := first_page_reached
  have hrefs : s.refs 0 = 1 := by
    have hcount := (systemReaches_inv hr).refs_eq 0
    simp only [mappingsOf, List.map_singleton, List.sum_singleton, hone] at hcount
    exact hcount
  have hrefs' : s'.refs 0 = 1 := by rw [AddressSpace.destroy_refs hcall, hrefs]
  refine ⟨a, s, s', hr, hone, hrefs, hcall, hrefs', AddressSpace.destroy_deleted hcall, ?_⟩
  intro hrel
  have hsum := hrel.refs_eq 0
  simp only [mappingsOf, List.map_singleton, List.sum_singleton, hone] at hsum
  omega

end Borrrdex
