import Borrrdex.Memory.LeastFreeBlock

/-!
# The memory map

`hal::init_stivale2` marks the usable entries of the boot loader's memory map free.  An entry may
have any base and any length: the base is rounded down to a block and the length up to blocks, and
both numbers are cut to 32 bits.

`marks_iff` says when the bitmap is as it should be (`Marks`): no entry reaches behind the bitmap,
and a block that an entry covers in part is covered by the others.  Entries from 2⁴⁴ on, or that
long, have numbers that are cut; what they mark is something else.
-/

set_option autoImplicit false

namespace Borrrdex
namespace PhysAllocator

open Bitmap

namespace UsableRegion

/-- `align`, at first. -/
def first (r : UsableRegion) : ℕ := r.base.toNat / 4096 % 2 ^ 32

/-- `blocks_to_clear`, at first. -/
def count (r : UsableRegion) : ℕ := (r.size.toNat + 4095) % 2 ^ 64 / 4096 % 2 ^ 32

/-- The block is inside the entry. -/
def Holds (r : UsableRegion) (b : ℕ) : Prop :=
  r.base.toNat ≤ 4096 * b ∧ 4096 * (b + 1) ≤ r.base.toNat + r.size.toNat

end UsableRegion

/-- Each byte of the block is in an entry. -/
def UsableBlock (regions : List UsableRegion) (b : ℕ) : Prop :=
  ∀ a, 4096 * b ≤ a → a < 4096 * (b + 1) →
    ∃ r ∈ regions, r.base.toNat ≤ a ∧ a < r.base.toNat + r.size.toNat

theorem UsableRegion.Holds.usableBlock {regions : List UsableRegion} {r : UsableRegion} {b : ℕ}
    (h : r.Holds b) (hr : r ∈ regions) : UsableBlock regions b :=
  fun _ hle hlt ↦ ⟨r, hr, h.1.trans hle, lt_of_lt_of_le hlt h.2⟩

/-- The words of `phys_mem_bitmap` that the loop of `mark_memory_region_free` touches. -/
def touched : ℕ → U32 → List ℕ
  | 0, _ => []
  | n + 1, align => align.toNat / 32 :: touched n (align + 1)

/-- The words that an entry touches. -/
def touchedBy (r : UsableRegion) : List ℕ :=
  touched (((r.size + 4095) / 4096).setWidth 32).toNat ((r.base / 4096).setWidth 32)

/-- **The bitmap is right**: only its words are touched, a free block is usable, and a block that is
inside an entry is free. -/
structure Marks (regions : List UsableRegion) : Prop where
  inside : ∀ r ∈ regions, ∀ word ∈ touchedBy r, word < physBitmapSizeDwords
  usable : ∀ b < physBitmapSizeDwords * 32, bit (boot regions).physMemBitmap b = false →
    UsableBlock regions b
  free : ∀ r ∈ regions, ∀ b < physBitmapSizeDwords * 32, r.Holds b →
    bit (boot regions).physMemBitmap b = false

/-- **What an entry has to be**, among the others. -/
structure Suits (regions : List UsableRegion) (r : UsableRegion) : Prop where
  /-- It ends with the bitmap. -/
  inside : r.count = 0 ∨ r.first + r.count ≤ physBitmapSizeDwords * 32
  /-- Its first block and its last may be covered by several entries. -/
  ends : r.count ≠ 0 → UsableBlock regions r.first ∧ UsableBlock regions (r.first + r.count - 1)
  /-- The number of its first block is cut: then others have to cover what is marked. -/
  far : 2 ^ 44 ≤ r.base.toNat → ∀ b, r.first ≤ b → b < r.first + r.count → UsableBlock regions b
  /-- The number of its blocks is cut: then others have to mark what is left. -/
  long : r.base.toNat < 2 ^ 44 → 2 ^ 44 ≤ r.size.toNat + 4095 →
    ∀ b < physBitmapSizeDwords * 32, r.base.toNat ≤ 4096 * b → r.first + r.count ≤ b →
      ∃ r' ∈ regions, r'.first ≤ b ∧ b < r'.first + r'.count

/-! ## The loop -/

theorem toNat_align (r : UsableRegion) : ((r.base / 4096).setWidth 32).toNat = r.first := by
  rw [BitVec.toNat_setWidth, toNat_div_4096]
  rfl

theorem toNat_blocksToClear (r : UsableRegion) :
    (((r.size + 4095) / 4096).setWidth 32).toNat = r.count := by
  rw [BitVec.toNat_setWidth, toNat_div_4096, BitVec.toNat_add]
  rfl

/-- **The words are inside just if the last bit is.** -/
theorem touched_inside_iff (n : ℕ) (align : U32) :
    (∀ word ∈ touched n align, word < physBitmapSizeDwords) ↔
      n = 0 ∨ align.toNat + n ≤ physBitmapSizeDwords * 32 := by
  induction n generalizing align with
  | zero => simp [touched]
  | succ n ih =>
    rw [touched, List.forall_mem_cons, ih]
    have hsucc : (align + 1).toNat = (align.toNat + 1) % 2 ^ 32 := BitVec.toNat_add align 1
    rw [hsucc]
    unfold physBitmapSizeDwords
    have hlt := align.isLt
    omega

/-- **What is free after the entries**, if no entry reaches behind the bitmap. -/
theorem bit_markRegionsFree {regions : List UsableRegion}
    (hin : ∀ r ∈ regions, r.count = 0 ∨ r.first + r.count ≤ physBitmapSizeDwords * 32)
    (a : PhysAllocator) (k : ℕ) :
    bit (markRegionsFree regions a).physMemBitmap k = false ↔
      bit a.physMemBitmap k = false ∨ ∃ r ∈ regions, r.first ≤ k ∧ k < r.first + r.count := by
  induction regions generalizing a with
  | nil => simp [markRegionsFree]
  | cons r regions ih =>
    have hbound : r.first + r.count ≤ 2 ^ 32 := by
      have hfirst : r.first < 2 ^ 32 := Nat.mod_lt _ (by decide)
      have := hin r (List.mem_cons_self ..)
      unfold physBitmapSizeDwords at this
      omega
    obtain ⟨-, -, hbit⟩ := markBlocksFree_spec r.count ((r.base / 4096).setWidth 32) a
      (by rw [toNat_align]; exact hbound)
    rw [toNat_align] at hbit
    have hrest := ih (fun r' hr' ↦ hin r' (List.mem_cons_of_mem _ hr'))
      (a.markMemoryRegionFree r.base r.size)
    rw [markMemoryRegionFree, toNat_blocksToClear] at hrest
    rw [markRegionsFree, List.foldl_cons, markMemoryRegionFree, toNat_blocksToClear]
    refine hrest.trans ?_
    rw [hbit k, or_assoc, List.exists_mem_cons_iff]

/-- **The free blocks of the bitmap.** -/
theorem bit_boot {regions : List UsableRegion}
    (hin : ∀ r ∈ regions, r.count = 0 ∨ r.first + r.count ≤ physBitmapSizeDwords * 32) {b : ℕ}
    (hb : b < physBitmapSizeDwords * 32) :
    bit (boot regions).physMemBitmap b = false ↔
      ∃ r ∈ regions, r.first ≤ b ∧ b < r.first + r.count := by
  have hinit := bit_initializePhysicalAllocator atLoad hb
  rw [boot, resetUsedBlocks, bit_markRegionsFree hin, hinit]
  simp

/-! ## The entries -/

/-- A block in the middle of what an entry marks is inside the entry. -/
theorem holds_of_middle {r : UsableRegion} {b : ℕ} (hbase : r.base.toNat < 2 ^ 44)
    (hlo : r.first < b) (hhi : b + 1 < r.first + r.count) : r.Holds b := by
  unfold UsableRegion.first UsableRegion.count at *
  have hcount : (r.size.toNat + 4095) % 2 ^ 64 / 4096 % 2 ^ 32 ≤ (r.size.toNat + 4095) / 4096 :=
    (Nat.mod_le _ _).trans (Nat.div_le_div_right (Nat.mod_le _ _))
  rw [UsableRegion.Holds]
  omega

/-- A block of the bitmap that is inside an entry is marked by the entry, but for the numbers that
are cut. -/
theorem marked_of_holds {r : UsableRegion} {b : ℕ} (hb : b < physBitmapSizeDwords * 32)
    (h : r.Holds b) :
    r.base.toNat < 2 ^ 44 ∧ r.first ≤ b ∧
      (r.size.toNat + 4095 < 2 ^ 44 → b < r.first + r.count) := by
  obtain ⟨hlo, hhi⟩ := h
  unfold physBitmapSizeDwords at hb
  unfold UsableRegion.first UsableRegion.count
  refine ⟨by omega, by omega, fun hsize ↦ ?_⟩
  rw [Nat.mod_eq_of_lt (by omega : r.size.toNat + 4095 < 2 ^ 64)]
  omega

/-- **The bitmap is right just if every entry suits.** -/
theorem marks_iff (regions : List UsableRegion) :
    Marks regions ↔ ∀ r ∈ regions, Suits regions r := by
  refine ⟨fun hmarks r hr ↦ ?_, fun hsuits ↦ ?_⟩
  · have hin : ∀ r ∈ regions, r.count = 0 ∨ r.first + r.count ≤ physBitmapSizeDwords * 32 := by
      intro r hr
      have := (touched_inside_iff _ _).mp (hmarks.inside r hr)
      rwa [toNat_blocksToClear, toNat_align] at this
    have husable : ∀ b, r.first ≤ b → b < r.first + r.count → UsableBlock regions b := by
      intro b hlo hhi
      have hb : b < physBitmapSizeDwords * 32 := by
        have := hin r hr
        omega
      exact hmarks.usable b hb ((bit_boot hin hb).mpr ⟨r, hr, hlo, hhi⟩)
    refine ⟨hin r hr, fun hcount ↦ ⟨husable _ le_rfl (by omega), husable _ (by omega) (by omega)⟩,
      fun _ ↦ husable, fun hbase hsize b hb hlo _ ↦ ?_⟩
    refine (bit_boot hin hb).mp (hmarks.free r hr b hb ⟨hlo, ?_⟩)
    unfold physBitmapSizeDwords at hb
    omega
  · have hin := fun r hr ↦ (hsuits r hr).inside
    refine ⟨fun r hr ↦ ?_, fun b hb hclear ↦ ?_, fun r hr b hb hholds ↦ ?_⟩
    · refine (touched_inside_iff _ _).mpr ?_
      rw [toNat_blocksToClear, toNat_align]
      exact hin r hr
    · obtain ⟨r, hr, hlo, hhi⟩ := (bit_boot hin hb).mp hclear
      have hends := (hsuits r hr).ends (by omega)
      by_cases hbase : r.base.toNat < 2 ^ 44
      · rcases Nat.eq_or_lt_of_le hlo with hfirst | hfirst
        · exact hfirst ▸ hends.1
        rcases Nat.lt_or_ge (b + 1) (r.first + r.count) with hlast | hlast
        · exact (holds_of_middle hbase hfirst hlast).usableBlock hr
        · have heq : b = r.first + r.count - 1 := by omega
          exact heq ▸ hends.2
      · exact (hsuits r hr).far (by omega) b hlo hhi
    · obtain ⟨hbase, hlo, hshort⟩ := marked_of_holds hb hholds
      refine (bit_boot hin hb).mpr ?_
      rcases Nat.lt_or_ge b (r.first + r.count) with hhi | hhi
      · exact ⟨r, hr, hlo, hhi⟩
      · refine (hsuits r hr).long hbase ?_ b hb hholds.1 hhi
        by_contra hsize
        exact absurd (hshort (by omega)) (by omega)

/-- An entry of a page behind the bitmap. -/
theorem not_marks_high : ¬ Marks [⟨0x1001900000, 0x1000⟩] := by
  intro h
  have hword := h.inside _ (List.mem_singleton_self _) 524488 (by decide)
  exact absurd hword (by decide)

end PhysAllocator
end Borrrdex
