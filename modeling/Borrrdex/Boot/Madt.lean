import Mathlib.Tactic
import Borrrdex.Fs.Ext2Mount
import Borrrdex.Lib.Records

/-!
# The processors of the machine

`read_madt` goes through the entries of the MADT, each of which begins with its type and its length,
and notes the processors that are enabled in `processors`, from its second slot on.  The table comes
from the firmware: an entry may say that it has no length, it may be cut off by the end of the
table, and there may be more processors than slots.

`readsMadt_iff` gives the tables that are read as they should be.  A place is an offset from the
beginning of the table, and behind the table the memory goes on.  `processors` is a function of
which the source has the first 256 values.
-/

set_option autoImplicit false

namespace Borrrdex.Acpi

open RecordChain

/-- What `read_madt` leaves, and what it has read (the places) and stored (the slots). -/
structure MadtState where
  processors : ℕ → Byte
  processorCount : ℕ
  ioApicBase : Option U32
  isos : List ℕ
  reads : List ℕ
  stored : List ℕ

/-- `processors` has so many slots. -/
def maxProcessors : ℕ := 256

/-- The variables as the kernel image loads them. -/
def MadtState.atLoad : MadtState where
  processors := fun _ ↦ 0
  processorCount := 1
  ioApicBase := none
  isos := []
  reads := []
  stored := []

/-- A field of so many bytes is read. -/
def MadtState.read (o size : ℕ) (s : MadtState) : MadtState :=
  { s with reads := s.reads ++ List.range' o size }

variable (mem : ℕ → Byte) (bspid : Byte)

/-- `h.length`. -/
def madtLength : ℕ := (le32 mem 4).toNat

/-- `madt_header->entries`. -/
def madtEntries : ℕ := 44

/-- `entry->length`. -/
def entryLength (o : ℕ) : ℕ := (mem (o + 1)).toNat

/-- `local_apic->apic_id`. -/
def apicId (o : ℕ) : Byte := mem (o + 3)

/-- `case madt::TYPE_PROCESSOR_LOCAL_APIC`. -/
def localApic (s : MadtState) (o : ℕ) : MadtState :=
  let s := s.read (o + 4) 4
  if le32 mem (o + 4) &&& 3 ≠ 0 then
    let s := s.read (o + 3) 1
    if apicId mem o = bspid then s
    else
      { s with
        processors := Function.update s.processors s.processorCount (apicId mem o)
        processorCount := s.processorCount + 1
        stored := s.stored ++ [s.processorCount] }
  else s

/-- `case madt::TYPE_IO_APIC`. -/
def ioApic (s : MadtState) (o : ℕ) : MadtState :=
  let s := (s.read (o + 4) 4).read (o + 8) 4
  if le32 mem (o + 8) = 0 then { s with ioApicBase := some (le32 mem (o + 4)) } else s

/-- The body of the loop of `read_madt`. -/
def madtEntry (s : MadtState) (o : ℕ) : MadtState :=
  let s := s.read o 1
  let s :=
    if mem o = 0 then localApic mem bspid s o
    else if mem o = 1 then ioApic mem s o
    else if mem o = 2 then { s with isos := s.isos ++ [o] }
    else s
  s.read (o + 1) 1

/-- `read_madt`, of a table that is there, with so many tests of the loop's condition. -/
def readMadt (tests : ℕ) : Option MadtState :=
  walk (entryLength mem) (madtLength mem) (madtEntry mem bspid) tests madtEntries
    (MadtState.atLoad.read 4 4)

/-- The entry is of a processor that is enabled and has not booted the machine. -/
def secondary (o : ℕ) : Bool :=
  mem o == 0 && le32 mem (o + 4) &&& 3 != 0 && apicId mem o != bspid

/-- **The table is read**: the loop ends, reads inside the table and stores inside `processors`, and
behind the first slot are the processors of the table in its order. -/
def ReadsMadt : Prop :=
  ∃ tests s, readMadt mem bspid tests = some s ∧
    (∀ p ∈ s.reads, p < madtLength mem) ∧ (∀ i ∈ s.stored, i < maxProcessors) ∧
    s.processorCount ≤ maxProcessors ∧
    ∃ os, Records (entryLength mem) (madtLength mem) madtEntries os ∧
      (List.range' 1 (s.processorCount - 1)).map s.processors =
        (os.filter (secondary mem bspid)).map (apicId mem)

/-- So much of an entry is read, by its type. -/
def fieldsSize (o : ℕ) : ℕ := if mem o = 0 then 8 else if mem o = 1 then 12 else 2

/-- **What a table has to be**: it has its header's length inside, no entry has no length or is cut
off, and the processors have slots. -/
def SuitsMadt : Prop :=
  8 ≤ madtLength mem ∧
    ∃ os, Records (entryLength mem) (madtLength mem) madtEntries os ∧
      (∀ o ∈ os, o + fieldsSize mem o ≤ madtLength mem) ∧
      (os.filter (secondary mem bspid)).length < maxProcessors

variable {mem : ℕ → Byte} {bspid : Byte}

/-! ## An entry -/

theorem forall_mem_range'_iff {o size stop : ℕ} (hsize : 0 < size) :
    (∀ p ∈ List.range' o size, p < stop) ↔ o + size ≤ stop := by
  refine ⟨fun h ↦ ?_, fun h p hp ↦ ?_⟩
  · have := h (o + size - 1) (by rw [List.mem_range'_1]; omega)
    omega
  · rw [List.mem_range'_1] at hp
    omega

/-- All that has been read is before the end. -/
def MadtState.ReadsInside (s : MadtState) (stop : ℕ) : Prop := ∀ p ∈ s.reads, p < stop

theorem readsInside_read {s : MadtState} {o size stop : ℕ} (hsize : 0 < size) :
    (s.read o size).ReadsInside stop ↔ s.ReadsInside stop ∧ o + size ≤ stop := by
  rw [MadtState.ReadsInside, MadtState.read, List.forall_mem_append, forall_mem_range'_iff hsize]
  rfl

theorem readsInside_localApic (s : MadtState) (o stop : ℕ) :
    (localApic mem bspid s o).ReadsInside stop ↔ s.ReadsInside stop ∧ o + 8 ≤ stop := by
  have hboth : ((s.read (o + 4) 4).read (o + 3) 1).ReadsInside stop ↔
      s.ReadsInside stop ∧ o + 8 ≤ stop := by
    rw [readsInside_read one_pos, readsInside_read four_pos, and_assoc]
    exact and_congr_right fun _ ↦ by omega
  rw [localApic]
  dsimp only
  split_ifs
  · exact hboth
  · exact hboth
  · exact readsInside_read four_pos

theorem readsInside_ioApic (s : MadtState) (o stop : ℕ) :
    (ioApic mem s o).ReadsInside stop ↔ s.ReadsInside stop ∧ o + 12 ≤ stop := by
  have hboth : ((s.read (o + 4) 4).read (o + 8) 4).ReadsInside stop ↔
      s.ReadsInside stop ∧ o + 12 ≤ stop := by
    rw [readsInside_read four_pos, readsInside_read four_pos, and_assoc]
    exact and_congr_right fun _ ↦ by omega
  rw [ioApic]
  split_ifs
  · exact hboth
  · exact hboth

/-- **An entry is read inside the table** just if its fields are inside. -/
theorem readsInside_madtEntry (s : MadtState) (o stop : ℕ) :
    (madtEntry mem bspid s o).ReadsInside stop ↔
      s.ReadsInside stop ∧ o + fieldsSize mem o ≤ stop := by
  rw [madtEntry, readsInside_read one_pos, fieldsSize]
  split_ifs with hlocal hio hiso
  · rw [readsInside_localApic, readsInside_read one_pos, and_assoc, and_assoc]
    exact and_congr_right fun _ ↦ by omega
  · rw [readsInside_ioApic, readsInside_read one_pos, and_assoc, and_assoc]
    exact and_congr_right fun _ ↦ by omega
  · have hsame : MadtState.ReadsInside { s.read o 1 with isos := (s.read o 1).isos ++ [o] } stop ↔
        (s.read o 1).ReadsInside stop := Iff.rfl
    rw [hsame, readsInside_read one_pos, and_assoc]
    exact and_congr_right fun _ ↦ by omega
  · rw [readsInside_read one_pos, and_assoc]
    exact and_congr_right fun _ ↦ by omega

/-- What `read_madt` has noted. -/
def MadtState.ids (s : MadtState) : List Byte :=
  (List.range' 1 (s.processorCount - 1)).map s.processors

/-- The slots up to the count have been stored. -/
def MadtState.Counted (s : MadtState) : Prop :=
  1 ≤ s.processorCount ∧ s.stored = List.range' 1 (s.processorCount - 1)

/-- An entry of another kind notes nothing. -/
theorem madtEntry_of_not_secondary {o : ℕ} (h : secondary mem bspid o = false) (s : MadtState) :
    (madtEntry mem bspid s o).processors = s.processors ∧
      (madtEntry mem bspid s o).processorCount = s.processorCount ∧
      (madtEntry mem bspid s o).stored = s.stored := by
  rw [madtEntry]
  split_ifs with hlocal hio hiso
  · rw [localApic]
    dsimp only
    split_ifs with hflags hboot
    · exact ⟨rfl, rfl, rfl⟩
    · have hsec : secondary mem bspid o = true := by
        simp only [secondary, Bool.and_eq_true, beq_iff_eq, bne_iff_ne]
        exact ⟨⟨hlocal, hflags⟩, hboot⟩
      exact absurd (hsec.symm.trans h) (by decide)
    · exact ⟨rfl, rfl, rfl⟩
  · rw [ioApic]
    split_ifs
    · exact ⟨rfl, rfl, rfl⟩
    · exact ⟨rfl, rfl, rfl⟩
  · exact ⟨rfl, rfl, rfl⟩
  · exact ⟨rfl, rfl, rfl⟩

/-- An entry of a processor is noted in the next slot. -/
theorem madtEntry_of_secondary {o : ℕ} (h : secondary mem bspid o = true) (s : MadtState) :
    (madtEntry mem bspid s o).processors =
        Function.update s.processors s.processorCount (apicId mem o) ∧
      (madtEntry mem bspid s o).processorCount = s.processorCount + 1 ∧
      (madtEntry mem bspid s o).stored = s.stored ++ [s.processorCount] := by
  simp only [secondary, Bool.and_eq_true, beq_iff_eq, bne_iff_ne] at h
  obtain ⟨⟨hlocal, hflags⟩, hboot⟩ := h
  rw [madtEntry]
  rw [if_pos hlocal, localApic]
  dsimp only
  rw [if_pos hflags, if_neg hboot]
  exact ⟨rfl, rfl, rfl⟩

/-- **A step of the loop.** -/
theorem madtEntry_spec (mem : ℕ → Byte) (bspid : Byte) {s : MadtState} (hcounted : s.Counted)
    (o : ℕ) :
    (madtEntry mem bspid s o).Counted ∧
      (madtEntry mem bspid s o).ids =
        s.ids ++ ([o].filter (secondary mem bspid)).map (apicId mem) := by
  obtain ⟨hpos, hstored⟩ := hcounted
  cases hsec : secondary mem bspid o with
  | false =>
    obtain ⟨hproc, hcount, hst⟩ := madtEntry_of_not_secondary hsec s
    rw [MadtState.Counted, MadtState.ids, hproc, hcount, hst, List.filter_cons, hsec]
    exact ⟨⟨hpos, hstored⟩, (List.append_nil _).symm⟩
  | true =>
    obtain ⟨hproc, hcount, hst⟩ := madtEntry_of_secondary hsec s
    have hlast : s.processorCount + 1 - 1 = s.processorCount - 1 + 1 := by omega
    have hnext : 1 + 1 * (s.processorCount - 1) = s.processorCount := by omega
    rw [MadtState.Counted, MadtState.ids, hproc, hcount, hst, hlast, List.range'_concat, hnext,
      List.filter_cons, hsec, List.map_append]
    refine ⟨⟨by omega, by rw [hstored]⟩, ?_⟩
    have hbefore : (List.range' 1 (s.processorCount - 1)).map
        (Function.update s.processors s.processorCount (apicId mem o)) = s.ids := by
      refine List.map_congr_left fun i hi ↦ Function.update_of_ne ?_ _ _
      rw [List.mem_range'_1] at hi
      omega
    rw [hbefore]
    simp

/-- **What the loop leaves behind the entries.** -/
theorem foldl_madtEntry_spec (mem : ℕ → Byte) (bspid : Byte) (os : List ℕ) {s : MadtState}
    (hcounted : s.Counted) (stop : ℕ) :
    (os.foldl (madtEntry mem bspid) s).Counted ∧
      (os.foldl (madtEntry mem bspid) s).ids =
        s.ids ++ (os.filter (secondary mem bspid)).map (apicId mem) ∧
      ((os.foldl (madtEntry mem bspid) s).ReadsInside stop ↔
        s.ReadsInside stop ∧ ∀ o ∈ os, o + fieldsSize mem o ≤ stop) := by
  induction os generalizing s with
  | nil => exact ⟨hcounted, (List.append_nil _).symm, by simp⟩
  | cons o os ih =>
    obtain ⟨hstep, hids⟩ := madtEntry_spec mem bspid hcounted o
    obtain ⟨hend, hrest, hreads⟩ := ih hstep
    refine ⟨hend, ?_, ?_⟩
    · rw [List.foldl_cons, hrest, hids, List.append_assoc, ← List.map_append, ← List.filter_append]
      rfl
    · rw [List.foldl_cons, hreads, readsInside_madtEntry, List.forall_mem_cons, and_assoc]

/-! ## The table -/

/-- **A table is read as it should be just if it suits.** -/
theorem readsMadt_iff (mem : ℕ → Byte) (bspid : Byte) :
    ReadsMadt mem bspid ↔ SuitsMadt mem bspid := by
  have hstart : (MadtState.atLoad.read 4 4).Counted := ⟨le_rfl, rfl⟩
  have hspec := fun os : List ℕ ↦
    foldl_madtEntry_spec mem bspid os hstart (madtLength mem)
  have hheader : (MadtState.atLoad.read 4 4).ReadsInside (madtLength mem) ↔ 8 ≤ madtLength mem := by
    rw [readsInside_read four_pos]
    exact and_iff_right (by simp [MadtState.ReadsInside, MadtState.atLoad])
  have hcount : ∀ os : List ℕ, (os.foldl (madtEntry mem bspid)
    (MadtState.atLoad.read 4 4)).processorCount =
      (os.filter (secondary mem bspid)).length + 1 := by
    intro os
    have hlen := congrArg List.length (hspec os).2.1
    have hpos := (hspec os).1.1
    simp only [MadtState.ids, List.length_map, List.length_range', List.length_append] at hlen
    have hnone : (MadtState.atLoad.read 4 4).processorCount = 1 := rfl
    omega
  refine ⟨?_, ?_⟩
  · rintro ⟨tests, s, hs, hreads, -, hslots, -⟩
    obtain ⟨os, hos, rfl⟩ := exists_records_of_walk hs
    obtain ⟨hhead, hfields⟩ := (hspec os).2.2.mp hreads
    rw [hcount] at hslots
    exact ⟨hheader.mp hhead, os, hos, hfields, hslots⟩
  · rintro ⟨hhead, os, hos, hfields, hslots⟩
    refine ⟨os.length + 1, _, hos.walk_eq _ (Nat.lt_succ_self _) _,
      (hspec os).2.2.mpr ⟨hheader.mpr hhead, hfields⟩, fun i hi ↦ ?_, ?_, os, hos, (hspec os).2.1⟩
    · rw [(hspec os).1.2, hcount, List.mem_range'_1] at hi
      omega
    · rw [hcount]
      exact hslots

/-- A table that has an entry of length 0. -/
theorem not_readsMadt_zero : ¬ ReadsMadt (fun p ↦ if p = 4 then 46 else 0) 0 := by
  rintro ⟨tests, s, hs, -⟩
  obtain ⟨os, hos, -⟩ := exists_records_of_walk hs
  cases hos with
  | done h => exact absurd h (by decide)
  | record _ hsize _ => exact hsize rfl

end Borrrdex.Acpi
