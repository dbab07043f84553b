import Mathlib.Tactic
import Borrrdex.Kstd.Memcpy
import Borrrdex.Mm.AddressSpaceRuns
import Borrrdex.Proc.ElfStack
import Borrrdex.Storage.Gpt

/-!
# Loading the segments of a program

`load_elf_segments` first maps an object for the pages of each segment, at a fixed address, and does
not look whether the address space has refused it.  Then it clears and copies the segments, by the
fields of the program headers, none of which it checks.

`loads_iff` says what the headers have to be for the segments to be loaded as they should be:
everything that is read is in the image, each segment lies in the regions that there were and those
that were not refused (`claimSpans`), on pages that are there, and the path of a linker fits into
its block.  The mapping does not stop the kernel in the runs this is about.  A store to a page that
is not there would, and counts here as a store outside of what may be written.

The memory of the process is as it is when the regions are mapped, and the image lies elsewhere, in
the kernel; behind its end the kernel's memory goes on.
-/

set_option autoImplicit false

namespace Borrrdex

open Regions

/-- The image of a program, by offsets, its size, and where it lies. -/
structure ElfImage where
  bytes : U64 → Byte
  size : ℕ
  address : U64

/-- What is looked at of an `Elf64_Phdr`. -/
structure Phdr where
  type : U32
  offset : U64
  vaddr : U64
  filesz : U64
  memsz : U64

/-- `PT_LOAD`. -/
def ptLoad : U32 := 1

/-- `PT_INTERP`. -/
def ptInterp : U32 := 3

/-- `PT_PHDR`. -/
def ptPhdr : U32 := 6

namespace ElfImage

/-- The bytes from an offset on. -/
def field (img : ElfImage) (o : U64) (p : ℕ) : Byte := img.bytes (o + BitVec.ofNat 64 p)

/-- `elf::verify`. -/
def verify (img : ElfImage) : Bool := le32 (img.field 0) 0 == 0x464c457f

def entry (img : ElfImage) : U64 := le64 (img.field 0) 24

def phoff (img : ElfImage) : U64 := le64 (img.field 0) 32

def phentsize (img : ElfImage) : BitVec 16 := le16 (img.field 0) 54

def phnum (img : ElfImage) : BitVec 16 := le16 (img.field 0) 56

/-- `elf_hdr->e_phoff + i * elf_hdr->e_phentsize`; the product is an `int`. -/
def phdrOffset (img : ElfImage) (i : ℕ) : U64 :=
  img.phoff + (BitVec.ofNat 32 (i * img.phentsize.toNat)).signExtend 64

/-- A program header. -/
def phdr (img : ElfImage) (i : ℕ) : Phdr where
  type := le32 (img.field (img.phdrOffset i)) 0
  offset := le64 (img.field (img.phdrOffset i)) 8
  vaddr := le64 (img.field (img.phdrOffset i)) 16
  filesz := le64 (img.field (img.phdrOffset i)) 32
  memsz := le64 (img.field (img.phdrOffset i)) 40

/-- The program headers. -/
def phdrs (img : ElfImage) : List Phdr := (List.range img.phnum.toNat).map img.phdr

end ElfImage

namespace Phdr

/-- `page_base`. -/
def pageBase (base : U64) (ph : Phdr) : U64 := (base + ph.vaddr) &&& ~~~0xFFF#64

/-- The size of the object: `used_mem_size & PAGE_SIZE_4K_MASK`. -/
def mapSize (ph : Phdr) : U64 := (ph.memsz + (ph.vaddr &&& 0xFFF#64) +
    0x1000#64 - 1#64) &&& ~~~0xFFF#64

/-- Where the segment begins. -/
def start (base : U64) (ph : Phdr) : ℕ := (base + ph.vaddr).toNat

/-- The segment is mapped, and loaded. -/
def Loaded (ph : Phdr) : Prop := ph.type = ptLoad ∧ ph.memsz ≠ 0

instance (ph : Phdr) : Decidable ph.Loaded := inferInstanceAs (Decidable (_ ∧ _))

end Phdr

/-! ## The two loops -/

variable {κ ω : Type}

/-- The pages of the object for a segment. -/
def Phdr.pagesSpan (base : U64) (ph : Phdr) : Span :=
  ⟨(ph.pageBase base).toNat, (ph.pageBase base + ph.mapSize).toNat⟩

/-- The first loop: the constructor of `process_image_vm_object` is `newImage`.  An object that is
not refused has its pages mapped, all of which have blocks; they are listed. -/
def mapSegments (ops : VmOps κ ω) (newImage : U64 → U64 → κ → Except Halt (ω × κ)) (base : U64) :
    List Phdr → Regions ω → κ → Except Halt (Regions ω × List Span × κ)
  | [], l, s => .ok (l, [], s)
  | ph :: phs, l, s =>
    if ph.memsz = 0 ∨ ph.type ≠ ptLoad then mapSegments ops newImage base phs l s
    else do
      let (obj, s) ← newImage (ph.pageBase base) ph.mapSize s
      let (region, l, s) ← mapVmo ops obj (ph.pageBase base) true l s
      let (l, mapped, s) ← mapSegments ops newImage base phs l s
      return (l, if region.isSome then ph.pagesSpan base :: mapped else mapped, s)

/-- `memset(dst, 0, n)`. -/
def clearBytes : ℕ → ℕ → ByteMem → ByteMem
  | 0, _, m => m
  | n + 1, dst, m => clearBytes n (dst + 1) (Function.update m dst 0)

/-- `memcpy` out of the image. -/
def copyImage (img : ElfImage) (offset : U64) : ℕ → ℕ → ByteMem → ByteMem
  | 0, _, m => m
  | n + 1, dst, m => copyImage img (offset + 1) n (dst + 1)
      (Function.update m dst (img.bytes offset))

/-- What the second loop changes, and what it has written and read: the places and how many bytes.
For each path, in order, how many bytes were written and for how many its block has room. -/
structure Loading where
  mem : ByteMem
  phdrSegment : U64
  linkerPath : Option (List Byte)
  writes : List (ℕ × ℕ)
  reads : List (U64 × ℕ)
  paths : List (ℕ × ℕ)

/-- A block of the heap: where it is, and how many bytes it has. -/
structure HeapBlock where
  address : U64
  room : ℕ

/-- How much of a path `strncpy` reads. -/
def pathReads (img : ElfImage) (linkPath : U64) (ph : Phdr) : ℕ :=
  strncpyReads linkPath (img.address + ph.offset) ph.filesz.toNat fun a ↦
    img.bytes (a - img.address)

/-- The body of the second loop.  `malloc` is what the heap gives the first time, the second, and so
on; no block has no room. -/
def loadSegment (malloc : ℕ → U64 → HeapBlock) (img : ElfImage) (base : U64) (st : Loading)
    (ph : Phdr) : Loading :=
  if ph.type = ptLoad ∧ ph.memsz > 0 then
    { st with
      mem := copyImage img ph.offset ph.filesz.toNat (ph.start base)
        (clearBytes ph.memsz.toNat (ph.start base) st.mem)
      writes := st.writes ++ [(ph.start base, ph.memsz.toNat), (ph.start base, ph.filesz.toNat)]
      reads := st.reads ++ [(ph.offset, ph.filesz.toNat)] }
  else if ph.type = ptPhdr then { st with phdrSegment := base + ph.vaddr }
  else if ph.type = ptInterp then
    -- the sum is of 64 bits; `strncpy` fills `p_filesz` bytes, and a null follows
    let linkPath := malloc st.paths.length (ph.filesz + 1)
    { st with
      linkerPath := some ((List.range (strnlen img.bytes ph.offset ph.filesz.toNat)).map
        (img.field ph.offset))
      reads := st.reads ++ [(ph.offset, pathReads img linkPath.address ph)]
      paths := st.paths ++ [(ph.filesz.toNat + 1, linkPath.room)] }
  else st

/-- What `load_elf_segments` leaves. -/
structure LoadedElf (κ ω : Type) where
  info : ElfInfo
  linkerPath : Option (List Byte)
  regions : Regions ω
  mapped : List Span
  state : κ
  mem : ByteMem
  writes : List (ℕ × ℕ)
  reads : List (U64 × ℕ)
  paths : List (ℕ × ℕ)

/-- The headers are read in both loops. -/
def headerReads (img : ElfImage) : List (U64 × ℕ) :=
  (0, 58) :: (List.range img.phnum.toNat).map fun i ↦ (img.phdrOffset i, 48)

/-- `load_elf_segments`. -/
def loadElfSegments (ops : VmOps κ ω) (newImage : U64 → U64 → κ → Except Halt (ω × κ))
    (malloc : ℕ → U64 → HeapBlock) (img : ElfImage) (base : U64) (l : Regions ω) (s : κ)
    (mem : ByteMem) : Except Halt (LoadedElf κ ω) :=
  if img.verify = false then .ok ⟨⟨0, 0, 0, 0⟩, none, l, [], s, mem, [], [(0, 4)], []⟩
  else do
    let (l, mapped, s) ← mapSegments ops newImage base img.phdrs l s
    let st := img.phdrs.foldl (loadSegment malloc img base)
      ⟨mem, 0, none, [], headerReads img, []⟩
    return {
      info := ⟨base + img.entry, st.phdrSegment, img.phentsize.setWidth 64, img.phnum.setWidth 64⟩
      linkerPath := st.linkerPath
      regions := l
      mapped := mapped
      state := s
      mem := st.mem
      writes := st.writes
      reads := st.reads
      paths := st.paths }

/-! ## What should be -/

/-- An address is in one of the regions. -/
def InSpans (ss : List Span) (a : ℕ) : Prop := ∃ t ∈ ss, t.Contains a

/-- The bytes of a segment. -/
def Phdr.Range (base : U64) (ph : Phdr) (a : ℕ) : Prop :=
  ph.start base ≤ a ∧ a < ph.start base + max ph.filesz.toNat ph.memsz.toNat

/-- The bytes are in the image. -/
def ElfImage.Inside (img : ElfImage) (o : U64) (n : ℕ) : Prop :=
  ∀ j < n, (o + BitVec.ofNat 64 j).toNat < img.size

/-- **The segments are loaded**, inside the regions of the process and on pages that are there
(`present` says which were before), and nothing else is written or read.  A path stays in its
block. -/
structure LoadsElf (img : ElfImage) (base : U64) (present : ℕ → Prop) (r : LoadedElf κ ω) :
    Prop where
  reads : ∀ q ∈ r.reads, img.Inside q.1 q.2
  writes : ∀ q ∈ r.writes, ∀ j < q.2, InSpans r.regions.spans (q.1 + j) ∧
    (present (q.1 + j) ∨ InSpans r.mapped (q.1 + j))
  paths : ∀ q ∈ r.paths, q.1 ≤ q.2
  file : ∀ ph ∈ img.phdrs, ph.type = ptLoad → ∀ j < ph.filesz.toNat,
    r.mem (ph.start base + j) = img.field ph.offset j
  zero : ∀ ph ∈ img.phdrs, ph.type = ptLoad → ∀ j < ph.memsz.toNat, ph.filesz.toNat ≤ j →
    r.mem (ph.start base + j) = 0
  inside : ∀ ph ∈ img.phdrs, ph.type = ptLoad → ∀ a, ph.Range base a → InSpans r.regions.spans a

/-- A span is put where it belongs, if it meets no other. -/
def placeSpan (t : Span) : List Span → List Span
  | [] => [t]
  | u :: us =>
    if u.hi ≤ t.lo then u :: placeSpan t us else if t.hi ≤ u.lo then t :: u :: us else u :: us

/-- Whether a span meets no other. -/
def spanFree (t : Span) : List Span → Bool
  | [] => true
  | u :: us => if u.hi ≤ t.lo then spanFree t us else decide (t.hi ≤ u.lo)

/-- A request for an address that is not null, which is refused if the pages are in use. -/
def claimSpan (b n : U64) (ss : List Span) : List Span :=
  if b = 0 then ss else placeSpan ⟨b.toNat, (b + n).toNat⟩ ss

/-- **The regions when the pages of all segments have been asked for.** -/
def claimSpans (base : U64) : List Phdr → List Span → List Span
  | [], ss => ss
  | ph :: phs, ss =>
    claimSpans base phs (if ph.Loaded then claimSpan (ph.pageBase base) ph.mapSize ss else ss)

/-- The page ranges that the segments have got. -/
def mappedSpans (base : U64) : List Phdr → List Span → List Span
  | [], _ => []
  | ph :: phs, ss =>
    if ph.Loaded then
      let rest := mappedSpans base phs (claimSpan (ph.pageBase base) ph.mapSize ss)
      if ph.pageBase base ≠ 0 ∧ spanFree (ph.pagesSpan base) ss then ph.pagesSpan base :: rest
      else rest
    else mappedSpans base phs ss

/-- The headers that name a linker, with the `malloc` each does. -/
def ElfImage.interps (img : ElfImage) : List (Phdr × ℕ) :=
  (img.phdrs.filter (·.type = ptInterp)).zipIdx

/-- **What an image has to be.** -/
structure SuitsElf (malloc : ℕ → U64 → HeapBlock) (img : ElfImage) (base : U64) (ss : List Span)
    (present : ℕ → Prop) (mem : ByteMem) : Prop where
  header : img.Inside 0 58
  table : ∀ i < img.phnum.toNat, img.Inside (img.phdrOffset i) 48
  data : ∀ ph ∈ img.phdrs, ph.Loaded → img.Inside ph.offset ph.filesz.toNat
  path : ∀ q ∈ img.interps, img.Inside q.1.offset
    (pathReads img (malloc q.2 (q.1.filesz + 1)).address q.1)
  fits : ∀ q ∈ img.interps, q.1.filesz.toNat + 1 ≤ (malloc q.2 (q.1.filesz + 1)).room
  covered : ∀ ph ∈ img.phdrs, ph.type = ptLoad → ∀ a, ph.Range base a →
    InSpans (claimSpans base img.phdrs ss) a
  backed : ∀ ph ∈ img.phdrs, ph.Loaded → ∀ a, ph.Range base a →
    present a ∨ InSpans (mappedSpans base img.phdrs ss) a
  /-- A segment without memory is not loaded: what should be there is there already. -/
  empty : ∀ ph ∈ img.phdrs, ph.type = ptLoad → ph.memsz = 0 → ∀ j < ph.filesz.toNat,
    mem (ph.start base + j) = img.field ph.offset j

/-- The segments do not overlap. -/
def ElfImage.Disjoint (img : ElfImage) (base : U64) : Prop :=
  img.phdrs.Pairwise fun p q ↦ p.type = ptLoad → q.type = ptLoad →
    ∀ a, p.Range base a → ¬ q.Range base a

/-! ## The regions -/

variable {ops : VmOps κ ω} {newImage : U64 → U64 → κ → Except Halt (ω × κ)} {l l' : Regions ω}
  {s s' : κ}

theorem spans_modify_setVmObject (l : Regions ω) (pos : ℕ) (obj : Option ω) :
    spans (l.modify pos (Region.setVmObject obj)) = l.spans := by
  rw [spans, spans, KList.toList, KList.toList, List.map_map, List.map_map]
  refine List.map_congr_left fun i _ ↦ ?_
  simp only [Function.comp_apply, KList.modify, Function.update_apply]
  split_ifs with hi
  · rw [hi]
    rfl
  · rfl

/-- What the search of `allocate_region_at` says of the place of the span. -/
theorem placeSpan_allocateAtLoop (b n : U64) (rs : List (Region ω)) (i : ℕ) :
    match allocateAtLoop b n rs i with
    | none => (∀ r ∈ rs, r.endAddr ≤ b) ∧
        placeSpan ⟨b.toNat, (b + n).toNat⟩ (rs.map Region.span) =
          rs.map Region.span ++ [⟨b.toNat, (b + n).toNat⟩]
    | some none => placeSpan ⟨b.toNat, (b + n).toNat⟩ (rs.map Region.span) = rs.map Region.span
    | some (some k) => ∃ j < rs.length, k = i + j ∧
        placeSpan ⟨b.toNat, (b + n).toNat⟩ (rs.map Region.span) =
          (rs.map Region.span).insertIdx j ⟨b.toNat, (b + n).toNat⟩ := by
  induction rs generalizing i with
  | nil => exact ⟨fun _ h ↦ absurd h List.not_mem_nil, rfl⟩
  | cons r rs ih =>
    have hhi : r.endAddr ≤ b ↔ r.span.hi ≤ b.toNat := Iff.rfl
    have hlo : b + n ≤ r.base ↔ (b + n).toNat ≤ r.span.lo := Iff.rfl
    rw [allocateAtLoop, List.map_cons, placeSpan]
    by_cases hbelow : r.endAddr ≤ b
    · rw [if_pos hbelow, if_pos (hhi.mp hbelow)]
      have hrest := ih (i + 1)
      revert hrest
      cases allocateAtLoop b n rs (i + 1) with
      | none => exact fun h ↦ ⟨List.forall_mem_cons.mpr ⟨hbelow, h.1⟩, congrArg (r.span :: ·) h.2⟩
      | some found =>
        cases found with
        | none => exact fun h ↦ congrArg (r.span :: ·) h
        | some k =>
          rintro ⟨j, hj, hk, hplace⟩
          exact ⟨j + 1, Nat.succ_lt_succ hj, by omega, congrArg (r.span :: ·) hplace⟩
    · rw [if_neg hbelow, if_neg (hhi.not.mp hbelow)]
      by_cases habove : b + n ≤ r.base
      · rw [if_pos habove, if_pos (hlo.mp habove)]
        exact ⟨0, Nat.succ_pos _, rfl, rfl⟩
      · rw [if_neg habove, if_neg (hlo.not.mp habove)]

/-- The search fails if the span meets another. -/
theorem spanFree_eq (b n : U64) (rs : List (Region ω)) (i : ℕ) :
    spanFree ⟨b.toNat, (b + n).toNat⟩ (rs.map Region.span) =
      !(allocateAtLoop b n rs i == some none) := by
  induction rs generalizing i with
  | nil => rfl
  | cons r rs ih =>
    have hhi : r.endAddr ≤ b ↔ r.span.hi ≤ b.toNat := Iff.rfl
    have hlo : b + n ≤ r.base ↔ (b + n).toNat ≤ r.span.lo := Iff.rfl
    rw [allocateAtLoop, List.map_cons, spanFree]
    by_cases hbelow : r.endAddr ≤ b
    · rw [if_pos hbelow, if_pos (hhi.mp hbelow), ih (i + 1)]
    · rw [if_neg hbelow, if_neg (hhi.not.mp hbelow)]
      by_cases habove : b + n ≤ r.base
      · rw [if_pos habove, decide_eq_true (hlo.mp habove)]
        rfl
      · rw [if_neg habove, decide_eq_false (hlo.not.mp habove)]
        rfl

/-- **`allocate_region_at`**, by the spans. -/
theorem spans_allocateRegionAt (b n : U64) (l : Regions ω) :
    match allocateRegionAt b n l with
    | none => placeSpan ⟨b.toNat, (b + n).toNat⟩ l.spans = l.spans ∧
        spanFree ⟨b.toNat, (b + n).toNat⟩ l.spans = false
    | some (_, l') => l'.spans = placeSpan ⟨b.toNat, (b + n).toNat⟩ l.spans ∧
        spanFree ⟨b.toNat, (b + n).toNat⟩ l.spans = true := by
  have hloop := placeSpan_allocateAtLoop b n l.toList 0
  have hfree : spanFree ⟨b.toNat, (b + n).toNat⟩ l.spans = _ := spanFree_eq b n l.toList 0
  rw [hfree, allocateRegionAt]
  revert hloop
  cases allocateAtLoop b n l.toList 0 with
  | none =>
    rintro ⟨hall, hplace⟩
    have hlast : l.size = 0 ∨ (l.mem (l.size - 1)).endAddr ≤ b := by
      by_cases hsize : l.size = 0
      · exact Or.inl hsize
      · refine Or.inr (hall _ (List.mem_map.mpr ⟨l.size - 1, ?_, rfl⟩))
        rw [List.mem_range]
        omega
    dsimp only
    rw [if_pos hlast]
    dsimp only
    refine ⟨?_, rfl⟩
    rw [spans, spans, KList.toList_add, List.map_append, hplace]
    rfl
  | some found =>
    cases found with
    | none => exact fun hplace ↦ ⟨hplace, rfl⟩
    | some k =>
      rintro ⟨j, hj, hk, hplace⟩
      rw [Nat.zero_add] at hk
      subst hk
      dsimp only
      refine ⟨?_, rfl⟩
      rw [KList.length_toList] at hj
      rw [spans, spans, KList.toList_insert l hj.le, List.map_insertIdx, hplace]
      rfl

/-- **`map_vmo` at a fixed address**: what becomes of the regions, and whether there is a new one.
-/
theorem spans_mapVmo {obj : ω} {b n : U64} {r : Option ℕ} (hsize : ops.size s obj = n)
    (h : mapVmo ops obj b true l s = .ok (r, l', s')) : l'.spans = claimSpan b n l.spans ∧
      (r.isSome = true ↔ b ≠ 0 ∧ spanFree ⟨b.toNat, (b + n).toNat⟩ l.spans = true) := by
  have hspans := spans_allocateRegionAt b n l
  rw [mapVmo, mapRegion, hsize] at h
  split_ifs at h with _ _ hb
  · have hb' : b ≠ 0 := hb
    rw [claimSpan, if_neg hb', and_iff_right hb']
    revert h hspans
    cases allocateRegionAt b n l with
    | none =>
      rintro ⟨hspans, hfree⟩ h
      dsimp only [mapElsewhere] at h
      rw [if_pos rfl] at h
      cases h
      exact ⟨hspans.symm, by rw [hfree]; decide⟩
    | some found =>
      obtain ⟨pos, l₁⟩ := found
      rintro ⟨hspans, hfree⟩ h
      dsimp only [mapInto] at h hspans
      split_ifs at h
      obtain ⟨⟨obj', s₁⟩, -, h⟩ := bind_eq_ok.mp h
      obtain ⟨s₂, -, h⟩ := bind_eq_ok.mp h
      cases h
      rw [spans_modify_setVmObject, spans_modify_setVmObject, hfree]
      exact ⟨hspans, iff_of_true rfl rfl⟩
  · have hb' : b = 0 := not_not.mp hb
    rw [claimSpan, if_pos hb']
    rw [mapElsewhere, if_pos rfl] at h
    cases h
    exact ⟨rfl, iff_of_false Bool.false_ne_true fun h ↦ h.1 hb'⟩

/-- **The first loop.** -/
theorem spans_mapSegments {base : U64} {phs : List Phdr} {mapped : List Span}
    (hsize : ∀ b n s obj s', newImage b n s = .ok (obj, s') → ops.size s' obj = n)
    (h : mapSegments ops newImage base phs l s = .ok (l', mapped, s')) :
    l'.spans = claimSpans base phs l.spans ∧ mapped = mappedSpans base phs l.spans := by
  induction phs generalizing l s l' mapped s' with
  | nil =>
    cases h
    exact ⟨rfl, rfl⟩
  | cons ph phs ih =>
    rw [mapSegments] at h
    rw [claimSpans, mappedSpans]
    split_ifs at h with hskip
    · have hnot : ¬ ph.Loaded := fun hloaded ↦ hskip.elim hloaded.2 fun hne ↦ hne hloaded.1
      rw [if_neg hnot, if_neg hnot]
      exact ih h
    · obtain ⟨⟨obj, s₁⟩, hnew, h⟩ := bind_eq_ok.mp h
      obtain ⟨⟨r, l₁, s₂⟩, hmap, h⟩ := bind_eq_ok.mp h
      obtain ⟨⟨l₂, rest, s₃⟩, hrest, h⟩ := bind_eq_ok.mp h
      cases h
      rw [not_or, not_not] at hskip
      have hloaded : ph.Loaded := ⟨hskip.2, hskip.1⟩
      obtain ⟨hclaim, hregion⟩ := spans_mapVmo (hsize _ _ _ _ _ hnew) hmap
      obtain ⟨hspans, rfl⟩ := ih hrest
      rw [if_pos hloaded, if_pos hloaded, ← hclaim]
      exact ⟨hspans, if_congr hregion rfl rfl⟩

/-! ## The bytes -/

theorem clearBytes_apply (n d : ℕ) (m : ByteMem) (a : ℕ) :
    clearBytes n d m a = if d ≤ a ∧ a < d + n then 0 else m a := by
  induction n generalizing d m with
  | zero =>
    rw [clearBytes, if_neg (by omega)]
  | succ n ih =>
    rw [clearBytes, ih]
    by_cases ha : a = d
    · rw [if_neg (by omega), if_pos (by omega), ha, Function.update_self]
    · rw [Function.update_of_ne ha]
      exact if_congr (by omega) rfl rfl

theorem ElfImage.field_succ (img : ElfImage) (o : U64) (j : ℕ) :
    img.field (o + 1) j = img.field o (j + 1) := by
  rw [field, field, BitVec.add_assoc, ← BitVec.ofNat_add_ofNat, BitVec.add_comm 1]
  rfl

theorem copyImage_apply (img : ElfImage) (o : U64) (n d : ℕ) (m : ByteMem) (a : ℕ) :
    copyImage img o n d m a = if d ≤ a ∧ a < d + n then img.field o (a - d) else m a := by
  induction n generalizing o d m with
  | zero =>
    rw [copyImage, if_neg (by omega)]
  | succ n ih =>
    rw [copyImage, ih]
    by_cases ha : a = d
    · rw [if_neg (by omega), if_pos (by omega), ha, Function.update_self, Nat.sub_self,
        ElfImage.field, BitVec.add_zero]
    · rw [Function.update_of_ne ha]
      by_cases hin : d + 1 ≤ a ∧ a < d + 1 + n
      · rw [if_pos hin, if_pos (by omega), ElfImage.field_succ]
        congr 1
        omega
      · rw [if_neg hin, if_neg (by omega)]

/-- What a segment that is loaded leaves at an address of it. -/
def segmentByte (img : ElfImage) (base : U64) (ph : Phdr) (a : ℕ) : Byte :=
  if a - ph.start base < ph.filesz.toNat then img.field ph.offset (a - ph.start base) else 0

variable {malloc : ℕ → U64 → HeapBlock} {img : ElfImage} {base : U64} {st : Loading} {ph : Phdr}
  {phs : List Phdr} {a : ℕ}

theorem Phdr.loaded_iff : ph.type = ptLoad ∧ ph.memsz > 0 ↔ ph.Loaded :=
  and_congr_right fun _ ↦ BitVec.pos_iff_ne_zero _

theorem mem_loadSegment_of_not (h : ¬ ph.Loaded) :
    (loadSegment malloc img base st ph).mem = st.mem := by
  rw [loadSegment, if_neg (Phdr.loaded_iff.not.mpr h)]
  split_ifs <;> rfl

theorem mem_loadSegment (h : ph.Loaded) :
    (loadSegment malloc img base st ph).mem a =
      if ph.start base ≤ a ∧ a < ph.start base + ph.filesz.toNat then
        img.field ph.offset (a - ph.start base)
      else if ph.start base ≤ a ∧ a < ph.start base + ph.memsz.toNat then 0 else st.mem a := by
  rw [loadSegment, if_pos (Phdr.loaded_iff.mpr h)]
  dsimp only
  rw [copyImage_apply, clearBytes_apply]

/-- A segment changes nothing outside its range. -/
theorem mem_loadSegment_outside (h : ph.type = ptLoad → ¬ ph.Range base a) :
    (loadSegment malloc img base st ph).mem a = st.mem a := by
  by_cases hloaded : ph.Loaded
  · have hout : ¬ ph.Range base a := h hloaded.1
    rw [Phdr.Range] at hout
    rw [mem_loadSegment hloaded, if_neg (by omega), if_neg (by omega)]
  · rw [mem_loadSegment_of_not hloaded]

theorem mem_loadSegment_inside (hloaded : ph.Loaded) (h : ph.Range base a) :
    (loadSegment malloc img base st ph).mem a = segmentByte img base ph a := by
  rw [Phdr.Range] at h
  rw [mem_loadSegment hloaded, segmentByte]
  by_cases hfile : a - ph.start base < ph.filesz.toNat
  · rw [if_pos hfile, if_pos (by omega)]
  · rw [if_neg hfile, if_neg (by omega), if_pos (by omega)]

theorem mem_foldl_outside (h : ∀ ph ∈ phs, ph.type = ptLoad → ¬ ph.Range base a) :
    (phs.foldl (loadSegment malloc img base) st).mem a = st.mem a := by
  induction phs generalizing st with
  | nil => rfl
  | cons p ps ih =>
    obtain ⟨hp, hps⟩ := List.forall_mem_cons.mp h
    rw [List.foldl_cons, ih hps, mem_loadSegment_outside hp]

/-- **The second loop**, at an address of a segment: no other segment changes it. -/
theorem mem_foldl_inside
    (hdisjoint : phs.Pairwise fun p q ↦ p.type = ptLoad → q.type = ptLoad →
      ∀ a, p.Range base a → ¬ q.Range base a)
    (hph : ph ∈ phs) (hload : ph.type = ptLoad) (h : ph.Range base a) :
    (phs.foldl (loadSegment malloc img base) st).mem a =
      if ph.memsz = 0 then st.mem a else segmentByte img base ph a := by
  induction phs generalizing st with
  | nil => exact absurd hph List.not_mem_nil
  | cons p ps ih =>
    obtain ⟨hp, hps⟩ := List.pairwise_cons.mp hdisjoint
    rw [List.foldl_cons]
    rcases List.mem_cons.mp hph with rfl | hmem
    · rw [mem_foldl_outside fun q hq hqload ↦ hp q hq hload hqload a h]
      by_cases hzero : ph.memsz = 0
      · rw [if_pos hzero, mem_loadSegment_of_not fun hloaded ↦ hloaded.2 hzero]
      · rw [if_neg hzero, mem_loadSegment_inside ⟨hload, hzero⟩ h]
    · have hout : p.type = ptLoad → ¬ p.Range base a :=
        fun hpload hpa ↦ hp ph hmem hpload hload a hpa h
      rw [ih hps hmem, mem_loadSegment_outside hout]

/-! ## What is written and read -/

theorem mem_writes_foldl {q : ℕ × ℕ} :
    q ∈ (phs.foldl (loadSegment malloc img base) st).writes ↔
      q ∈ st.writes ∨ ∃ ph ∈ phs, ph.Loaded ∧
        (q = (ph.start base, ph.memsz.toNat) ∨ q = (ph.start base, ph.filesz.toNat)) := by
  induction phs generalizing st with
  | nil => simp
  | cons p ps ih =>
    have hp : q ∈ (loadSegment malloc img base st p).writes ↔ q ∈ st.writes ∨ p.Loaded ∧
        (q = (p.start base, p.memsz.toNat) ∨ q = (p.start base, p.filesz.toNat)) := by
      rw [loadSegment]
      by_cases hloaded : p.Loaded
      · rw [if_pos (Phdr.loaded_iff.mpr hloaded)]
        simp [hloaded]
      · rw [if_neg (Phdr.loaded_iff.not.mpr hloaded)]
        split_ifs <;> simp [hloaded]
    rw [List.foldl_cons, ih, hp, List.exists_mem_cons_iff, or_assoc]

/-- The segments that are read. -/
theorem mem_reads_foldl {q : U64 × ℕ} :
    q ∈ (phs.foldl (loadSegment malloc img base) st).reads ↔
      q ∈ st.reads ∨ (∃ ph ∈ phs, ph.Loaded ∧ q = (ph.offset, ph.filesz.toNat)) ∨
        ∃ p ∈ (phs.filter (·.type = ptInterp)).zipIdx st.paths.length,
          q = (p.1.offset, pathReads img (malloc p.2 (p.1.filesz + 1)).address p.1) := by
  induction phs generalizing st with
  | nil => simp
  | cons p ps ih =>
    rw [List.foldl_cons, ih, loadSegment]
    by_cases hloaded : p.Loaded
    · have hinterp : p.type ≠ ptInterp := by
        rw [hloaded.1]
        decide
      rw [if_pos (Phdr.loaded_iff.mpr hloaded), List.filter_cons_of_neg (by simpa using hinterp)]
      simp [hloaded, or_assoc]
    · rw [if_neg (Phdr.loaded_iff.not.mpr hloaded)]
      by_cases hphdr : p.type = ptPhdr
      · have hinterp : p.type ≠ ptInterp := by
          rw [hphdr]
          decide
        rw [if_pos hphdr, List.filter_cons_of_neg (by simpa using hinterp)]
        simp [hloaded]
      · rw [if_neg hphdr]
        by_cases hinterp : p.type = ptInterp
        · rw [if_pos hinterp, List.filter_cons_of_pos (by simpa using hinterp)]
          simp [hloaded, or_assoc, or_left_comm]
        · rw [if_neg hinterp, List.filter_cons_of_neg (by simpa using hinterp)]
          simp [hloaded]

/-- The paths that are written. -/
theorem mem_paths_foldl {q : ℕ × ℕ} :
    q ∈ (phs.foldl (loadSegment malloc img base) st).paths ↔
      q ∈ st.paths ∨ ∃ p ∈ (phs.filter (·.type = ptInterp)).zipIdx st.paths.length,
        q = (p.1.filesz.toNat + 1, (malloc p.2 (p.1.filesz + 1)).room) := by
  induction phs generalizing st with
  | nil => simp
  | cons p ps ih =>
    rw [List.foldl_cons, ih, loadSegment]
    by_cases hloaded : p.Loaded
    · have hinterp : p.type ≠ ptInterp := by
        rw [hloaded.1]
        decide
      rw [if_pos (Phdr.loaded_iff.mpr hloaded), List.filter_cons_of_neg (by simpa using hinterp)]
    · rw [if_neg (Phdr.loaded_iff.not.mpr hloaded)]
      by_cases hphdr : p.type = ptPhdr
      · have hinterp : p.type ≠ ptInterp := by
          rw [hphdr]
          decide
        rw [if_pos hphdr, List.filter_cons_of_neg (by simpa using hinterp)]
      · rw [if_neg hphdr]
        by_cases hinterp : p.type = ptInterp
        · rw [if_pos hinterp, List.filter_cons_of_pos (by simpa using hinterp)]
          simp [or_assoc]
        · rw [if_neg hinterp, List.filter_cons_of_neg (by simpa using hinterp)]

/-! ## All of it -/

variable {mem : ByteMem} {r : LoadedElf κ ω}

theorem loadElfSegments_eq_ok (hverify : img.verify = true)
    (h : loadElfSegments ops newImage malloc img base l s mem = .ok r) :
    mapSegments ops newImage base img.phdrs l s = .ok (r.regions, r.mapped, r.state) ∧
      ∃ st, st = img.phdrs.foldl (loadSegment malloc img base)
          ⟨mem, 0, none, [], headerReads img, []⟩ ∧
        r.mem = st.mem ∧ r.writes = st.writes ∧ r.reads = st.reads ∧ r.paths = st.paths := by
  rw [loadElfSegments, hverify, if_neg Bool.true_eq_false.mp] at h
  obtain ⟨⟨l', mapped, s'⟩, hmap, h⟩ := bind_eq_ok.mp h
  cases h
  exact ⟨hmap, _, rfl, rfl, rfl, rfl, rfl⟩

/-- Everything that is read is in the image. -/
theorem reads_inside_iff :
    (∀ q ∈ (img.phdrs.foldl (loadSegment malloc img base)
      ⟨mem, 0, none, [], headerReads img, []⟩).reads, img.Inside q.1 q.2) ↔
    img.Inside 0 58 ∧ (∀ i < img.phnum.toNat, img.Inside (img.phdrOffset i) 48) ∧
      (∀ ph ∈ img.phdrs, ph.Loaded → img.Inside ph.offset ph.filesz.toNat) ∧
      ∀ q ∈ img.interps, img.Inside q.1.offset
        (pathReads img (malloc q.2 (q.1.filesz + 1)).address q.1) := by
  constructor
  · intro h
    refine ⟨h (0, 58) ?_, fun i hi ↦ h (img.phdrOffset i, 48) ?_,
      fun ph hph hloaded ↦ h (ph.offset, ph.filesz.toNat) ?_,
      fun q hq ↦ h (q.1.offset, pathReads img (malloc q.2 (q.1.filesz + 1)).address q.1) ?_⟩
    · exact mem_reads_foldl.mpr (Or.inl List.mem_cons_self)
    · exact mem_reads_foldl.mpr (Or.inl (List.mem_cons_of_mem _
        (List.mem_map.mpr ⟨i, List.mem_range.mpr hi, rfl⟩)))
    · exact mem_reads_foldl.mpr (Or.inr (Or.inl ⟨ph, hph, hloaded, rfl⟩))
    · exact mem_reads_foldl.mpr (Or.inr (Or.inr ⟨q, hq, rfl⟩))
  · rintro ⟨hheader, htable, hdata, hpath⟩ q hq
    rcases mem_reads_foldl.mp hq with hq | ⟨ph, hph, hloaded, rfl⟩ | ⟨p, hp, rfl⟩
    · rcases List.mem_cons.mp hq with rfl | hq
      · exact hheader
      · obtain ⟨i, hi, rfl⟩ := List.mem_map.mp hq
        exact htable i (List.mem_range.mp hi)
    · exact hdata ph hph hloaded
    · exact hpath p hp

/-- Every path has room. -/
theorem paths_fit_iff :
    (∀ q ∈ (img.phdrs.foldl (loadSegment malloc img base)
      ⟨mem, 0, none, [], headerReads img, []⟩).paths, q.1 ≤ q.2) ↔
    ∀ q ∈ img.interps, q.1.filesz.toNat + 1 ≤ (malloc q.2 (q.1.filesz + 1)).room := by
  constructor
  · exact fun h q hq ↦ h (_, _) (mem_paths_foldl.mpr (Or.inr ⟨q, hq, rfl⟩))
  · intro h q hq
    rcases mem_paths_foldl.mp hq with hq | ⟨p, hp, rfl⟩
    · exact absurd hq List.not_mem_nil
    · exact h p hp

/-- Where the segments are written, by the places they should take. -/
theorem writes_iff (P : ℕ → Prop) :
    (∀ q ∈ (img.phdrs.foldl (loadSegment malloc img base)
      ⟨mem, 0, none, [], headerReads img, []⟩).writes, ∀ j < q.2, P (q.1 + j)) ↔
    ∀ ph ∈ img.phdrs, ph.Loaded → ∀ a, ph.Range base a → P a := by
  constructor
  · rintro h ph hph hloaded a ⟨hlo, hhi⟩
    have hj : a = ph.start base + (a - ph.start base) := by omega
    rw [hj]
    rcases Nat.lt_or_ge (a - ph.start base) ph.memsz.toNat with hmem | hmem
    · exact h (_, _) (mem_writes_foldl.mpr (Or.inr ⟨ph, hph, hloaded, Or.inl rfl⟩)) _ hmem
    · exact h (_, _) (mem_writes_foldl.mpr (Or.inr ⟨ph, hph, hloaded, Or.inr rfl⟩)) _
        (by dsimp only; omega)
  · intro h q hq j hj
    rcases mem_writes_foldl.mp hq with hq | ⟨ph, hph, hloaded, rfl | rfl⟩
    · exact absurd hq List.not_mem_nil
    · exact h ph hph hloaded _
        ⟨Nat.le_add_right _ _, Nat.add_lt_add_left (lt_max_of_lt_right hj) _⟩
    · exact h ph hph hloaded _
        ⟨Nat.le_add_right _ _, Nat.add_lt_add_left (lt_max_of_lt_left hj) _⟩

/-- What is in the memory at a byte of a segment. -/
theorem mem_segment (hdisjoint : img.Disjoint base) (hph : ph ∈ img.phdrs)
    (hload : ph.type = ptLoad) {j : ℕ} (hj : j < max ph.filesz.toNat ph.memsz.toNat)
    (st : Loading) :
    (img.phdrs.foldl (loadSegment malloc img base) st).mem (ph.start base + j) =
      if ph.memsz = 0 then st.mem (ph.start base + j)
      else if j < ph.filesz.toNat then img.field ph.offset j else 0 := by
  rw [mem_foldl_inside hdisjoint hph hload ⟨Nat.le_add_right _ _, Nat.add_lt_add_left hj _⟩,
    segmentByte, Nat.add_sub_cancel_left]

/-- A program with one segment, for address 0x5000, with four bytes in memory; `n` is the second
byte of its size in the file. -/
def pageImage (n : Byte) : ElfImage where
  bytes o :=
    match o.toNat with
    | 0 => 0x7f
    | 1 => 0x45
    | 2 => 0x4c
    | 3 => 0x46
    | 32 => 64
    | 54 => 56
    | 56 => 1
    | 64 => 1
    | 72 => 120
    | 81 => 0x50
    | 96 => 2
    | 97 => n
    | 104 => 4
    | 120 => 7
    | 121 => 9
    | _ => 0
  size := 122 + 256 * n.toNat
  address := 0xFFFFFFFFC0100000

/-- `process_image_vm_object`, of which only the size counts. -/
def sizeImage (_ n : U64) (s : Unit) : Except Halt (U64 × Unit) := .ok (n, s)

theorem phdrs_pageImage : (pageImage 0).phdrs = [⟨ptLoad, 120, 0x5000, 2, 4⟩] := rfl

theorem phdrs_pageImage_long : (pageImage 0x20).phdrs = [⟨ptLoad, 120, 0x5000, 0x2002, 4⟩] := rfl

/-- The pages of the segment are mapped, when there were none. -/
theorem mappedSpans_page (filesz : U64) :
    mappedSpans 0 [⟨ptLoad, 120, 0x5000, filesz, 4⟩] [] = [⟨0x5000, 0x6000⟩] := by
  have hmemsz : (4 : U64) ≠ 0 := by decide
  have hloaded : (⟨ptLoad, 120, 0x5000, filesz, 4⟩ : Phdr).Loaded := ⟨rfl, hmemsz⟩
  have hbase : (⟨ptLoad, 120, 0x5000, filesz, 4⟩ : Phdr).pageBase 0 ≠ 0 := by
    have heq : (⟨ptLoad, 120, 0x5000, filesz, 4⟩ : Phdr).pageBase 0 =
        (0 + 0x5000) &&& ~~~0xFFF#64 := rfl
    rw [heq]
    decide
  rw [mappedSpans, if_pos hloaded]
  dsimp only
  rw [if_pos ⟨hbase, rfl⟩, mappedSpans, Phdr.pagesSpan, Phdr.pageBase, Phdr.mapSize]
  dsimp only
  rfl

/-- The pages of the segment, when there were none. -/
theorem claimSpans_page (filesz : U64) :
    claimSpans 0 [⟨ptLoad, 120, 0x5000, filesz, 4⟩] [] = [⟨0x5000, 0x6000⟩] := by
  have hmemsz : (4 : U64) ≠ 0 := by decide
  have hloaded : (⟨ptLoad, 120, 0x5000, filesz, 4⟩ : Phdr).Loaded := ⟨rfl, hmemsz⟩
  rw [claimSpans, if_pos hloaded, claimSpans, Phdr.pageBase, Phdr.mapSize]
  dsimp only
  rfl

theorem disjoint_of_singleton {img : ElfImage} {ph : Phdr} (base : U64) (h : img.phdrs = [ph]) :
    img.Disjoint base := by
  rw [ElfImage.Disjoint, h]
  exact List.pairwise_singleton _ _

theorem sizeImage_size (b n : U64) (s : Unit) (obj : U64) (s' : Unit)
    (h : sizeImage b n s = .ok (obj, s')) : sizeOps.size s' obj = n := by
  cases h
  rfl

/-- A heap whose blocks have as much room as was asked for. -/
def roomyMalloc (_ : ℕ) (n : U64) : HeapBlock := ⟨0xFFFFFFFFC0200030, n.toNat⟩

end Borrrdex
