import Borrrdex.Basic
import Borrrdex.Mm.KList

/-!
# Address spaces

An `address_space` is the list of the regions a process has mapped.  `find_available_region` looks
for room for a new one, `allocate_region_at` takes a given place if it can, and `map_vmo` and
`allocate_anonymous_vmo` do the one or the other and then map an object into the region.

The objects are those of `vm_object`, which is an abstract class.  So is `VmOps` here: `κ` is
whatever state the objects live in and `ω` is a pointer to one.  A region in the list is given by
its position, where the source has a pointer; locks and log messages are left out.

`mapVmo` and `allocateAnonymousVmo` are the two functions on a list that takes the new region.  What
they come to with the memory that the list really has is `onCells` of them.
-/

set_option autoImplicit false

namespace Borrrdex

/-- `mapped_region`. -/
structure Region (ω : Type) where
  /-- `_base`. -/
  base : U64
  /-- `_size`. -/
  size : U64
  /-- `_vm_object`. -/
  vmObject : Option ω

/-- `end`. -/
def Region.endAddr {ω : Type} (r : Region ω) : U64 := r.base + r.size

/-- `set_vm_object`. -/
def Region.setVmObject {ω : Type} (obj : Option ω) (r : Region ω) : Region ω :=
  { r with vmObject := obj }

/-- What an address space asks of `vm_object`. -/
structure VmOps (κ ω : Type) where
  /-- `size`. -/
  size : κ → ω → U64
  /-- `add_use`. -/
  addUse : ω → κ → κ
  /-- `map_allocated_blocks`, into the page map of the address space. -/
  mapAllocatedBlocks : ω → U64 → κ → Except Halt κ
  /-- `new physical_vm_object(size, true, false, false)`. -/
  newAnonymous : U64 → κ → Except Halt (ω × κ)

/-- `_regions`. -/
abbrev Regions (ω : Type) := KList (Region ω)

namespace Regions

variable {κ ω : Type}

/-- The list of a new `address_space`. -/
def empty (garbage : Nat → Region ω) : Regions ω := KList.ofCapacity 256 (by decide) garbage

/-! ## Looking addresses up -/

/-- `address_to_region`: the position of the region. -/
def addressToRegion (address : U64) (l : Regions ω) : Option Nat :=
  l.toList.findIdx? fun r ↦ r.vmObject.isSome && r.base ≤ address && address < r.endAddr

/-- The loop of `range_in_region`. -/
def rangeInRegionLoop : List (Region ω) → U64 → Bool
  | [], _ => false
  | r :: rs, base =>
    if base < r.base then false
    else
      let base := if r.base ≤ base ∧ base ≤ r.endAddr then r.endAddr else base
      if r.endAddr ≤ base then true else rangeInRegionLoop rs base

/-- `range_in_region`.  The end of the range is computed, and looked at in no test. -/
def rangeInRegion (base _size : U64) (l : Regions ω) : Bool := rangeInRegionLoop l.toList base

/-- `check_usermode_pointer`. -/
def checkUsermodePointer (addr len : U64) (l : Regions ω) : Bool := rangeInRegion addr len l

/-! ## Making room -/

/-- Three tests of `find_available_region`: the candidate, moved behind a region in its way.  The
source keeps its end in a variable of its own, which is `base + size` all along. -/
def skipRegion (size : U64) (r : Region ω) (base : U64) : U64 :=
  let base := if r.base ≤ base ∧ base < r.endAddr then r.endAddr else base
  let base := if r.base < base + size ∧ base + size ≤ r.endAddr then r.endAddr else base
  if base < r.base ∧ r.endAddr < base + size then r.endAddr else base

/-- The loop of `find_available_region`, from region `i` on: where to insert, if not at the end, and
the base. -/
def findLoop (size : U64) : List (Region ω) → Nat → U64 → Option Nat × U64
  | [], _, base => (none, base)
  | r :: rs, i, base =>
    if base + size ≤ r.base then (some i, base)
    else findLoop size rs (i + 1) (skipRegion size r base)

/-- `find_available_region`: the new region's position, and the list with it. -/
def findAvailableRegion (size : U64) (l : Regions ω) : Option (Nat × Regions ω) :=
  match findLoop size l.toList 0 0x1000#64 with
  | (some i, base) => some (i, l.insert i ⟨base, size, none⟩)
  | (none, base) =>
    if base + size < kernelVirtualBase then some (l.size, l.add ⟨base, size, none⟩) else none

/-- The loop of `allocate_region_at`, from region `i` on: where to insert, `some none` if there is a
region in the way, and `none` if it runs to the end. -/
def allocateAtLoop (base size : U64) : List (Region ω) → Nat → Option (Option Nat)
  | [], _ => none
  | r :: rs, i =>
    if r.endAddr ≤ base then allocateAtLoop base size rs (i + 1)
    else if base + size ≤ r.base then some (some i)
    else some none

/-- `allocate_region_at`: the new region's position, and the list with it. -/
def allocateRegionAt (base size : U64) (l : Regions ω) : Option (Nat × Regions ω) :=
  match allocateAtLoop base size l.toList 0 with
  | some (some i) => some (i, l.insert i ⟨base, size, none⟩)
  | some none => none
  | none =>
    if l.size = 0 ∨ (l.mem (l.size - 1)).endAddr ≤ base then
      some (l.size, l.add ⟨base, size, none⟩)
    else none

/-! ## Mapping objects -/

/-- The end of `map_vmo` and of `allocate_anonymous_vmo`: put an object into the region and map
it.  `make` is where the object comes from. -/
def mapInto (ops : VmOps κ ω) (make : κ → Except Halt (ω × κ)) (pos : Nat) (l : Regions ω) (s : κ) :
    Except Halt (Option Nat × Regions ω × κ) :=
  if (l.mem pos).base = 0#64 then .error .noRegion
  else do
    let (obj, s) ← make s
    let s := ops.addUse obj s
    let l := l.modify pos (Region.setVmObject (some obj))
    let s ← ops.mapAllocatedBlocks obj (l.mem pos).base s
    return (some pos, l, s)

/-- The other two branches of the two functions, for a request that does not get the base it asks
for. -/
def mapElsewhere (ops : VmOps κ ω) (make : κ → Except Halt (ω × κ)) (size : U64) (fixed : Bool)
    (l : Regions ω) (s : κ) : Except Halt (Option Nat × Regions ω × κ) :=
  if fixed then .ok (none, l, s)
  else
    match findAvailableRegion size l with
    | some (pos, l) => mapInto ops make pos l s
    | none => .error .noRegion

/-- The body of `map_vmo` and of `allocate_anonymous_vmo`. -/
def mapRegion (ops : VmOps κ ω) (make : κ → Except Halt (ω × κ)) (size base : U64) (fixed : Bool)
    (l : Regions ω) (s : κ) : Except Halt (Option Nat × Regions ω × κ) :=
  if size &&& 0xFFF#64 ≠ 0#64 then .error .sizeNotAligned
  else if base &&& 0xFFF#64 ≠ 0#64 then .error .baseNotAligned
  else
    match if base ≠ 0#64 then allocateRegionAt base size l else none with
    | some (pos, l) => mapInto ops make pos (l.modify pos (Region.setVmObject none)) s
    | none => mapElsewhere ops make size fixed l s

/-- `map_vmo`: the position of the region, which is `none` where the source returns a null
pointer. -/
def mapVmo (ops : VmOps κ ω) (obj : ω) (base : U64) (fixed : Bool) (l : Regions ω) (s : κ) :
    Except Halt (Option Nat × Regions ω × κ) :=
  mapRegion ops (fun s ↦ .ok (obj, s)) (ops.size s obj) base fixed l s

/-- `allocate_anonymous_vmo`. -/
def allocateAnonymousVmo (ops : VmOps κ ω) (size base : U64) (fixed : Bool) (l : Regions ω)
    (s : κ) : Except Halt (Option Nat × Regions ω × κ) :=
  mapRegion ops (ops.newAnonymous size) size base fixed l s

/-! ## The memory of the list -/

/-- `operator=` of `mapped_region` begins by releasing the handle in the cell, so that a cell that
has not been constructed has to hold a null handle: two words of `malloc`'s or `realloc`'s memory,
of which the second is 0. -/
def cells (grows : Nat → Bool) : KList.Cells (Region ω) where
  grows := grows
  assignable r := r.vmObject.isNone

/-- A call that puts a region into the list, or gives up, with the memory that the list has.  It is
`none` if a handle is released that was never made: that decrements some word, deletes some object
if the word was 1, or faults, and nothing is said of what follows. -/
def onCells (grows : Nat → Bool) (l : Regions ω)
    (call : Except Halt (Option Nat × Regions ω × κ)) :
    Option (Except Halt (Option Nat × Regions ω × κ)) :=
  match call with
  | .ok (some _, _, _) =>
    match l.insertion (cells grows) with
    | .through => some call
    | .noMemory => some (.error .outOfMemory)
    | .stray => none
  | _ => some call

end Regions
end Borrrdex
