import Borrrdex.Lib.FlatMemory
import Borrrdex.Lib.LinkedWalk
import Borrrdex.Mm.AddressSpaceRuns

/-!
# The stack trace of a process

When a process has crashed, `user_print_stack_trace` follows the frames of its stack, from the one
in `rbp` on, as long as each is accepted as a user pointer.  All that it reads has been accepted.
But the frames are what the process has made of them, and nothing counts them: a chain that leads
back to one of its frames is followed for ever (`printsTrace_iff`).
-/

set_option autoImplicit false

namespace Borrrdex

open FlatMemory LinkedWalk Regions

variable {ω : Type}

/-- What is read, byte by byte, and what is logged. -/
structure StackTrace where
  reads : List U64
  logged : List U64
deriving DecidableEq

/-- The bytes of a word. -/
def wordBytes (a : U64) : List U64 := (List.range 8).map fun i ↦ a + BitVec.ofNat 64 i

/-- A frame is followed: `rip = *(rbp + 1)` is logged, and `*rbp` read. -/
def StackTrace.frame (m : Mem) (rbp : U64) (t : StackTrace) : StackTrace where
  reads := wordBytes (rbp + 8) ++ (wordBytes rbp ++ t.reads)
  logged := loadWord m (rbp + 8) :: t.logged

section Trace

variable (check : U64 → U64 → Bool) (m : Mem)

/-- `user_print_stack_trace`, if it follows fewer than so many frames; `check` is
`check_usermode_pointer` for the address space of the process. -/
def userPrintStackTrace : ℕ → U64 → Option StackTrace
  | 0, _ => none
  | n + 1, rbp =>
    if rbp ≠ 0 ∧ check rbp 16 then
      (userPrintStackTrace n (loadWord m rbp)).map (StackTrace.frame m rbp)
    else some ⟨[], []⟩

/-- It returns, and has read accepted bytes only. -/
def PrintsTrace (l : Regions ω) (rbp : U64) : Prop :=
  ∃ n t, userPrintStackTrace check m n rbp = some t ∧
    ∀ a ∈ t.reads, ∃ r ∈ l.toList, r.span.Contains a.toNat

/-- The frame that a frame leads to, if it is accepted. -/
def nextFrame (rbp : U64) : Option U64 :=
  if rbp ≠ 0 ∧ check rbp 16 then some (loadWord m rbp) else none

end Trace

variable {check : U64 → U64 → Bool} {m : Mem} {l : Regions ω} {rbp : U64}

/-- The trace of a walk. -/
theorem userPrintStackTrace_eq (n : ℕ) (rbp : U64) :
    userPrintStackTrace check m n rbp =
      (walk (nextFrame check m) n rbp).map fun fs ↦ fs.foldr (StackTrace.frame m) ⟨[], []⟩ := by
  induction n generalizing rbp with
  | zero => rfl
  | succ n ih =>
    rw [userPrintStackTrace, walk, nextFrame]
    split
    · rw [ih]
      dsimp only
      rw [Option.map_map, Option.map_map]
      rfl
    · rfl

/-- What is read is read from the frames. -/
theorem mem_reads_iff {fs : List U64} {a : U64} :
    a ∈ (fs.foldr (StackTrace.frame m) ⟨[], []⟩).reads ↔
      ∃ f ∈ fs, a ∈ wordBytes (f + 8) ∨ a ∈ wordBytes f := by
  induction fs with
  | nil => simp
  | cons f fs ih =>
    rw [List.foldr_cons, StackTrace.frame, List.mem_append, List.mem_append, ih, ← or_assoc,
      List.exists_mem_cons_iff]

/-- The bytes of an accepted frame are in regions. -/
theorem exists_region_of_mem_wordBytes (h : Mapped l rbp 16) {a : U64}
    (ha : a ∈ wordBytes (rbp + 8) ∨ a ∈ wordBytes rbp) :
    ∃ r ∈ l.toList, r.span.Contains a.toNat := by
  have hex : ∃ i < 16, a = rbp + BitVec.ofNat 64 i := by
    rcases ha with ha | ha
    · obtain ⟨i, hi, rfl⟩ := List.mem_map.mp ha
      have hlt := List.mem_range.mp hi
      refine ⟨8 + i, by omega, ?_⟩
      rw [BitVec.ofNat_add, ← add_assoc]
      rfl
    · obtain ⟨i, hi, rfl⟩ := List.mem_map.mp ha
      have hlt := List.mem_range.mp hi
      exact ⟨i, by omega, rfl⟩
  obtain ⟨i, hi, rfl⟩ := hex
  have hsize : (16 : U64).toNat = 16 := rfl
  -- the last byte is in a region, so that the addresses do not wrap
  obtain ⟨r, -, -, hlast⟩ := h (rbp.toNat + 15) (by omega) (by omega)
  have hend : r.span.hi < 2 ^ 64 := r.endAddr.isLt
  have haddr : (rbp + BitVec.ofNat 64 i).toNat = rbp.toNat + i := by
    rw [BitVec.toNat_add, BitVec.toNat_ofNat]
    omega
  rw [haddr]
  exact h (rbp.toNat + i) (by omega) (by omega)

/-- **A stack trace ends, and stays in the process, if and only if its frames have no cycle**, where
the check of user pointers is right. -/
theorem printsTrace_iff (hcheck : ∀ a, check a 16 = true ↔ Mapped l a 16) (rbp : U64) :
    PrintsTrace check m l rbp ↔ Acyclic (nextFrame check m) rbp := by
  have : Finite U64 := .of_injective BitVec.toFin BitVec.toFin_injective
  rw [← exists_walk_iff]
  constructor
  · rintro ⟨n, t, ht, -⟩
    rw [userPrintStackTrace_eq] at ht
    obtain ⟨fs, hfs, -⟩ := Option.map_eq_some_iff.mp ht
    exact ⟨n, fs, hfs⟩
  · rintro ⟨n, fs, hfs⟩
    refine ⟨n, _, by rw [userPrintStackTrace_eq, hfs, Option.map_some], fun a ha ↦ ?_⟩
    obtain ⟨f, hf, haf⟩ := mem_reads_iff.mp ha
    obtain ⟨b, hb⟩ := exists_follows_of_mem hfs hf
    rw [Follows, nextFrame] at hb
    split at hb
    · next hacc => exact exists_region_of_mem_wordBytes ((hcheck f).mp hacc.2) haf
    · cases hb

/-! ## A process with one page -/

/-- The right check, for it. -/
def checkOnePage (a n : U64) : Bool :=
  a.toNat + n.toNat ≤ Span.coveredTo onePage.spans a.toNat

theorem checkOnePage_iff (a : U64) : checkOnePage a 16 = true ↔ Mapped onePage a 16 := by
  rw [mapped_iff (by rw [spans_onePage]; exact List.pairwise_singleton _ _), checkOnePage,
    decide_eq_true_iff]

/-- A stack whose only frame is at `0x5010`, with the word `next` in it. -/
def frameMemory (next : U64) : Mem := storeWord 0x5010 next fun _ ↦ 0

/-- A frame that leads to no other one ends the trace. -/
theorem printsTrace_iff_one : PrintsTrace checkOnePage (frameMemory 0) onePage 0x5010 :=
  (printsTrace_iff checkOnePage_iff 0x5010).mpr (acyclic_of_walk (n := 2) (l := [0x5010]) (by
    have hnext : nextFrame checkOnePage (frameMemory 0) 0x5010 = some 0 := by
      rw [nextFrame, if_pos (by decide), frameMemory, loadWord_storeWord]
    rw [walk, hnext]
    rfl))

/-- **A frame that leads to itself is followed for ever.** -/
theorem not_printsTrace_self :
    (∀ a, checkOnePage a 16 = true ↔ Mapped onePage a 16) ∧
      ¬ PrintsTrace checkOnePage (frameMemory 0x5010) onePage 0x5010 := by
  refine ⟨checkOnePage_iff, fun h ↦ ?_⟩
  obtain ⟨n, t, ht, -⟩ := h
  have hnext : nextFrame checkOnePage (frameMemory 0x5010) 0x5010 = some 0x5010 := by
    rw [nextFrame, if_pos (by decide), frameMemory, loadWord_storeWord]
  rw [userPrintStackTrace_eq, walk_eq_none_of_cycle (.single hnext)] at ht
  cases ht

end Borrrdex
