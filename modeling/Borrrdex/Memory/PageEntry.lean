import Borrrdex.Basic
import Borrrdex.Lib.Bitmap

/-!
# Page-table entries and the indices of an address

The entries of all four levels are 64-bit words with the same layout: flags in the low twelve
bits and above bit 51, and between them the physical address of a frame.  `set_page_frame`
replaces the frame bits and keeps every other bit of the word as it finds it, which is what makes
the prior contents of a table matter.

The four `..._GET_INDEX` functions cut nine bits each out of a virtual address.
-/

set_option autoImplicit false

namespace Borrrdex

/-- `TABLE_PRESENT`. -/
def tablePresent : U64 := 1#64

/-- `TABLE_WRITEABLE`. -/
def tableWriteable : U64 := 2#64

/-- `PAGE_USER`, which is also `PDPT_USER` and `PDE_USER`. -/
def pageUser : U64 := 4#64

/-- `PDE_2M`, which is also `PDPT_1G`: the entry maps a large page and not a table. -/
def pde2M : U64 := 128#64

/-- `PAGE_FRAME`: bits 12 to 51. -/
def pageFrame : U64 := 0xFFFFFFFFFF000#64

/-- `PML4_GET_INDEX`. -/
def pml4Index (addr : U64) : Nat := ((addr >>> 39) &&& 0x1FF#64).toNat

/-- `PDPT_GET_INDEX`. -/
def pdptIndex (addr : U64) : Nat := ((addr >>> 30) &&& 0x1FF#64).toNat

/-- `PDE_GET_INDEX`. -/
def pdeIndex (addr : U64) : Nat := ((addr >>> 21) &&& 0x1FF#64).toNat

/-- `PT_GET_INDEX`. -/
def ptIndex (addr : U64) : Nat := ((addr >>> 12) &&& 0x1FF#64).toNat

/-- `set_page_frame`. -/
def setPageFrame (page addr : U64) : U64 := (page &&& ~~~pageFrame) ||| (addr &&& pageFrame)

/-- `get_page_frame`: a frame *number*, cut to 32 bits. -/
def getPageFrame (p : U64) : U32 := ((p &&& pageFrame) >>> 12).setWidth 32

/-- The number of the block an entry frames, as the hardware reads it. -/
def frameOf (e : U64) : Nat := ((e &&& pageFrame) >>> 12).toNat

/-- The present bit of an entry. -/
def present (e : U64) : Bool := e &&& tablePresent != 0#64

/-- The page-size bit of an entry. -/
def large (e : U64) : Bool := e &&& pde2M != 0#64

/-! ## Bits of an entry -/

theorem present_eq (e : U64) : present e = e.getLsbD 0 := by
  have h : (e &&& tablePresent == 0#64) = !e.getLsbD 0 :=
    Bitmap.and_mask_beq_zero (w := 64) (j := 0) (by decide)
  rw [present, bne, h, Bool.not_not]

theorem large_eq (e : U64) : large e = e.getLsbD 7 := by
  have h : (e &&& pde2M == 0#64) = !e.getLsbD 7 :=
    Bitmap.and_mask_beq_zero (w := 64) (j := 7) (by decide)
  rw [large, bne, h, Bool.not_not]

@[simp] theorem present_or (e f : U64) : present (e ||| f) = (present e || present f) := by
  simp only [present_eq, BitVec.getLsbD_or]

@[simp] theorem large_or (e f : U64) : large (e ||| f) = (large e || large f) := by
  simp only [large_eq, BitVec.getLsbD_or]

@[simp] theorem present_setPageFrame (e a : U64) : present (setPageFrame e a) = present e := by
  have h1 : (~~~pageFrame).getLsbD 0 = true := by decide
  have h2 : pageFrame.getLsbD 0 = false := by decide
  simp only [present_eq, setPageFrame, BitVec.getLsbD_or, BitVec.getLsbD_and, h1, h2, Bool.and_true,
    Bool.and_false, Bool.or_false]

@[simp] theorem large_setPageFrame (e a : U64) : large (setPageFrame e a) = large e := by
  have h1 : (~~~pageFrame).getLsbD 7 = true := by decide
  have h2 : pageFrame.getLsbD 7 = false := by decide
  simp only [large_eq, setPageFrame, BitVec.getLsbD_or, BitVec.getLsbD_and, h1, h2, Bool.and_true,
    Bool.and_false, Bool.or_false]

/-- The frame bits `set_page_frame` leaves are those of the address. -/
@[simp] theorem setPageFrame_and_pageFrame (e a : U64) :
    setPageFrame e a &&& pageFrame = a &&& pageFrame := by
  have h : ~~~pageFrame &&& pageFrame = 0#64 := by decide
  rw [setPageFrame, BitVec.and_or_distrib_right, BitVec.and_assoc, h, BitVec.and_assoc,
    BitVec.and_self, BitVec.and_zero, BitVec.zero_or]

/-- Every other bit of the entry stays. -/
@[simp] theorem setPageFrame_and_not_pageFrame (e a : U64) :
    setPageFrame e a &&& ~~~pageFrame = e &&& ~~~pageFrame := by
  have h : pageFrame &&& ~~~pageFrame = 0#64 := by decide
  rw [setPageFrame, BitVec.and_or_distrib_right, BitVec.and_assoc, BitVec.and_assoc, h,
    BitVec.and_self, BitVec.and_zero, BitVec.or_zero]

/-! ## The frame of an entry -/

/-- Masking with `PAGE_FRAME` keeps forty bits from bit 12 on. -/
theorem toNat_and_pageFrame (x : U64) :
    (x &&& pageFrame).toNat = (x.toNat >>> 12 % 2 ^ 40) <<< 12 := by
  have hmask : pageFrame.toNat = (2 ^ 40 - 1) <<< 12 := by decide
  rw [BitVec.toNat_and, hmask]
  refine Nat.eq_of_testBit_eq fun i ↦ ?_
  rw [Nat.testBit_and, Nat.testBit_shiftLeft, Nat.testBit_shiftLeft, Nat.testBit_two_pow_sub_one,
    Nat.testBit_mod_two_pow, Nat.testBit_shiftRight]
  by_cases h : 12 ≤ i
  · rw [show 12 + (i - 12) = i by omega]
    simp only [h, decide_true, Bool.true_and]
    exact Bool.and_comm _ _
  · simp [h]

theorem frameOf_eq (e : U64) : frameOf e = e.toNat / 4096 % 2 ^ 40 := by
  rw [frameOf, BitVec.toNat_ushiftRight, toNat_and_pageFrame, Nat.shiftLeft_shiftRight,
    Nat.shiftRight_eq_div_pow]

@[simp] theorem frameOf_setPageFrame (e a : U64) : frameOf (setPageFrame e a) = frameOf a := by
  rw [frameOf, setPageFrame_and_pageFrame, frameOf]

/-- Flags outside the frame bits do not change the frame. -/
theorem frameOf_or {e f : U64} (hf : f &&& pageFrame = 0#64) : frameOf (e ||| f) = frameOf e := by
  rw [frameOf, BitVec.and_or_distrib_right, hf, BitVec.or_zero, frameOf]

theorem frameOf_blockAddr {b : Nat} (hb : b < 2 ^ 40) : frameOf (blockAddr b) = b := by
  rw [frameOf_eq, toNat_blockAddr (by omega), Nat.mul_div_cancel_left b (by decide),
    Nat.mod_eq_of_lt hb]

/-- `get_page_frame` is the frame, cut to 32 bits. -/
theorem getPageFrame_eq (e : U64) : getPageFrame e = BitVec.ofNat 32 (frameOf e) := by
  refine BitVec.eq_of_toNat_eq ?_
  rw [getPageFrame, BitVec.toNat_setWidth, BitVec.toNat_ofNat, frameOf]

/-! ## Indices as arithmetic -/

theorem toNat_and_0x1FF (x : U64) : (x &&& 0x1FF#64).toNat = x.toNat % 512 := by
  rw [BitVec.toNat_and]
  exact Nat.and_two_pow_sub_one_eq_mod x.toNat 9

theorem pml4Index_eq (addr : U64) : pml4Index addr = addr.toNat / 2 ^ 39 % 512 := by
  rw [pml4Index, toNat_and_0x1FF, BitVec.toNat_ushiftRight, Nat.shiftRight_eq_div_pow]

theorem pdptIndex_eq (addr : U64) : pdptIndex addr = addr.toNat / 2 ^ 30 % 512 := by
  rw [pdptIndex, toNat_and_0x1FF, BitVec.toNat_ushiftRight, Nat.shiftRight_eq_div_pow]

theorem pdeIndex_eq (addr : U64) : pdeIndex addr = addr.toNat / 2 ^ 21 % 512 := by
  rw [pdeIndex, toNat_and_0x1FF, BitVec.toNat_ushiftRight, Nat.shiftRight_eq_div_pow]

theorem ptIndex_eq (addr : U64) : ptIndex addr = addr.toNat / 2 ^ 12 % 512 := by
  rw [ptIndex, toNat_and_0x1FF, BitVec.toNat_ushiftRight, Nat.shiftRight_eq_div_pow]

end Borrrdex
