import Borrrdex.Memory.FreshPages
import Mathlib.Tactic

/-!
# Physical addresses from 4 GiB on

`kernel_map_virtual_memory_4k` writes forty bits of a frame's number into an entry.
`virtual_to_physical_addr` gets them back from `get_page_frame` as a `uint32_t`, and shifts that
left in 32 bits: what it returns is the address modulo `2 ^ 32` (`toNat_virtualToPhysicalAddr`).

So the two agree on a mapping just if all of it is below 4 GiB (`translates_iff`).  Whatever is
mapped, the other pages are left alone.
-/

set_option autoImplicit false

namespace Borrrdex

namespace KernelHeap

variable {h h' : KernelHeap} {flags phys : U64} {p n : ℕ}

/-- **What a mapping of `n` pages should do**, from the page `p` of the heap on: the pages are
translated to the addresses that they were mapped to, and all others to what they were. -/
structure Translates (h h' : KernelHeap) (phys : U64) (p n : ℕ) : Prop where
  mapped : ∀ k < n, h'.virtualToPhysicalAddr (pageAt (heapPage p) k) = pageAt phys k
  others : ∀ q < heapPages, (∀ k < n, q ≠ p + k) →
    h'.virtualToPhysicalAddr (heapPage q) = h.virtualToPhysicalAddr (heapPage q)

theorem virtualToPhysicalAddr_heapPage (hlarge : ∀ d, large (h.dir d) = false)
    (hp : p < heapPages) :
    h.virtualToPhysicalAddr (heapPage p) = (getPageFrame (h.entry p) <<< 12).setWidth 64 := by
  have hentry := entry_heapIndex h (heapPage p)
  rw [heapIndex_heapPage hp] at hentry
  rw [virtualToPhysicalAddr, pml4Index_heapPage hp, if_neg (lt_irrefl 511), hlarge,
    if_neg Bool.false_ne_true, hentry]

/-- **The address is cut to 32 bits.** -/
theorem toNat_virtualToPhysicalAddr (hlarge : ∀ d, large (h.dir d) = false) (hp : p < heapPages) :
    (h.virtualToPhysicalAddr (heapPage p)).toNat = 4096 * frameOf (h.entry p) % 2 ^ 32 := by
  rw [virtualToPhysicalAddr_heapPage hlarge hp, getPageFrame_eq, BitVec.toNat_setWidth,
    BitVec.toNat_shiftLeft, BitVec.toNat_ofNat, Nat.shiftLeft_eq]
  omega

/-- **A mapping is translated back just if it is below 4 GiB.** -/
theorem translates_iff (flags : U64) (hinv : HeapInv h) (hvirt : p + n ≤ heapPages)
    (haligned : phys.toNat % 4096 = 0) (hphys : phys.toNat + 4096 * n ≤ 2 ^ 52) :
    Translates h (kernelMapVirtualMemory4k flags n phys (heapPage p) h) phys p n ↔
      n = 0 ∨ phys.toNat + 4096 * n ≤ 2 ^ 32 := by
  have hn : n ≤ heapPages := by omega
  obtain ⟨hdir, hset, hrest⟩ := kernelMapVirtualMemory4k_spec flags hn phys (heapPage p) h
  generalize kernelMapVirtualMemory4k flags n phys (heapPage p) h = h' at hdir hset hrest
  have hlarge : ∀ d, large (h'.dir d) = false := fun d ↦ hdir ▸ hinv.not_large d
  have hindex : ∀ k < n, heapIndex (pageAt (heapPage p) k) = p + k := fun k hk ↦ by
    rw [pageAt_heapPage, heapIndex_heapPage (by omega)]
  have hpage : ∀ k < n, (pageAt phys k).toNat = phys.toNat + 4096 * k := fun k hk ↦ by
    rw [toNat_pageAt, Nat.mod_eq_of_lt (by omega)]
  have hback : ∀ k < n, (h'.virtualToPhysicalAddr (pageAt (heapPage p) k)).toNat =
      (phys.toNat + 4096 * k) % 2 ^ 32 := fun k hk ↦ by
    have hframe : frameOf (h'.entry (p + k)) = (phys.toNat + 4096 * k) / 4096 := by
      rw [← hindex k hk, hset k hk, frameOf_setPageFrame, frameOf_eq, hpage k hk]
      exact Nat.mod_eq_of_lt (by omega)
    rw [pageAt_heapPage, toNat_virtualToPhysicalAddr hlarge (by omega), hframe]
    omega
  constructor
  · intro ht
    rcases Nat.eq_zero_or_pos n with hzero | hpos
    · exact .inl hzero
    · right
      have hlast := congrArg BitVec.toNat (ht.mapped (n - 1) (by omega))
      rw [hback _ (by omega), hpage _ (by omega)] at hlast
      have hlt := Nat.mod_lt (phys.toNat + 4096 * (n - 1)) (by decide : 0 < 2 ^ 32)
      omega
  · intro hlow
    refine ⟨fun k hk ↦ BitVec.eq_of_toNat_eq ?_, fun q hq hne ↦ ?_⟩
    · rw [hback k hk, hpage k hk, Nat.mod_eq_of_lt (by omega)]
    · have hentry : h'.entry q = h.entry q := hrest q fun k hk ↦ hindex k hk ▸ hne k hk
      rw [virtualToPhysicalAddr_heapPage hlarge hq,
        virtualToPhysicalAddr_heapPage hinv.not_large hq, hentry]

/-- The two last pages below 4 GiB. -/
theorem translates_iff_last :
    Translates atInit (kernelMapVirtualMemory4k 3 2 0xFFFFE000 (heapPage 511) atInit) 0xFFFFE000
      511 2 ↔ 2 = 0 ∨ (0xFFFFE000 : U64).toNat + 4096 * 2 ≤ 2 ^ 32 :=
  translates_iff 3 heapInv_atInit (by decide) (by decide) (by decide)

/-- The page at 4 GiB is translated to the address 0. -/
theorem not_translates_4G :
    ¬ Translates atInit (kernelMapVirtualMemory4k 3 1 0x100000000 (heapPage 0) atInit) 0x100000000
      0 1 := by
  intro ht
  have hzero := ht.mapped 0 Nat.one_pos
  exact absurd hzero (by decide)

end KernelHeap

end Borrrdex
