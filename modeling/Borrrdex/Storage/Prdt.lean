import Borrrdex.Storage.AhciCommands

/-!
# The ranges of a command

`prepare_cmd_header` says how many ranges the table of a command has, by rounding the number of
sectors up to sixteens, and `prepare_prdt_entries` makes that many: sixteen sectors for each but the
last one, which gets what is left.  `prdtEntries_tile` says that the two agree for as many sectors
as a 16-bit number of entries holds.
-/

set_option autoImplicit false

namespace Borrrdex

namespace Ahci

/-- The ranges follow one another, from an address on. -/
def Tile (buf : U64) : List PrdtEntry → Prop
  | [] => True
  | e :: es => e.dbAddr = buf ∧ Tile (buf + BitVec.ofNat 64 e.length) es

/-- The entries for as many sectors as are left. -/
structure Divides (buf : U64) (sectors : ℕ) (entries : List PrdtEntry) : Prop where
  length : entries.length = (sectors - 1) / 16 + 1
  bounds : ∀ e ∈ entries, 512 ≤ e.length ∧ e.length ≤ 8192
  tile : Tile buf entries
  total : (entries.map PrdtEntry.length).sum = 512 * sectors

/-- The last entry. -/
theorem length_last {x : U64} (hpos : 0 < x.toNat) (hle : x.toNat ≤ 16) (buf : U64) :
    PrdtEntry.length ⟨buf, ((x <<< 9) - 1).setWidth 22⟩ = 512 * x.toNat := by
  have hshl : (x <<< 9).toNat = 512 * x.toNat := by
    rw [BitVec.toNat_shiftLeft, Nat.shiftLeft_eq]
    omega
  have hsub : ((x <<< 9) - 1).toNat = 512 * x.toNat - 1 := by bv_omega
  rw [PrdtEntry.length, BitVec.toNat_setWidth, hsub]
  omega

/-- **The loop of `prepare_prdt_entries`**, when there are sectors left for the last entry, and no
more than it has room for. -/
theorem divides_prdtLoop {k : ℕ} {buf sectorCount : U64} (hlt : 16 * k < sectorCount.toNat)
    (hle : sectorCount.toNat ≤ 16 * k + 16) :
    Divides buf sectorCount.toNat (prdtLoop buf sectorCount k) := by
  induction k generalizing buf sectorCount with
  | zero =>
    have hlast := length_last hlt hle buf
    refine ⟨?_, fun e he ↦ ?_, ⟨rfl, trivial⟩, ?_⟩
    · change 1 = _
      omega
    · rw [List.mem_singleton.mp he, hlast]
      omega
    · rw [prdtLoop, List.map_singleton, List.sum_singleton, hlast]
  | succ k ih =>
    have hsub : (sectorCount - 16).toNat = sectorCount.toNat - 16 := by bv_omega
    have hfull : PrdtEntry.length ⟨buf, 0x1fff⟩ = 8192 := rfl
    have hrest : Divides (buf + 0x2000) (sectorCount - 16).toNat
        (prdtLoop (buf + 0x2000) (sectorCount - 16) k) := ih (by omega) (by omega)
    rw [hsub] at hrest
    rw [prdtLoop]
    refine ⟨?_, List.forall_mem_cons.mpr ⟨?_, hrest.bounds⟩, ⟨rfl, ?_⟩, ?_⟩
    · rw [List.length_cons, hrest.length]
      omega
    · rw [hfull]
      omega
    · rw [hfull]
      exact hrest.tile
    · rw [List.map_cons, List.sum_cons, hrest.total, hfull]
      omega

/-- How many entries the header says there are. -/
theorem toNat_prdtEntries (cmdListBase : U64) {n : U64} (hpos : 1 ≤ n.toNat)
    (hle : n.toNat ≤ 16 * 65535) :
    (prepareCmdHeader cmdListBase n).prdtEntries.toNat = (n.toNat - 1) / 16 + 1 := by
  have hsub : (n - 1).toNat = n.toNat - 1 := by bv_omega
  have hone : (1 : BitVec 16).toNat = 1 := rfl
  rw [prepareCmdHeader, BitVec.toNat_add, BitVec.toNat_setWidth, BitVec.toNat_ushiftRight, hsub,
    Nat.shiftRight_eq_div_pow, hone]
  omega

/-- **The ranges of a command are those of its sectors**, one behind the other. -/
theorem prdtEntries_tile (cmdListBase buf n : U64) (hpos : 1 ≤ n.toNat)
    (hle : n.toNat ≤ 16 * 65535) :
    (prepareCmdHeader cmdListBase n).prdtEntries.toNat = (n.toNat - 1) / 16 + 1 ∧
      Divides buf n.toNat
        (preparePrdtEntries buf (prepareCmdHeader cmdListBase n).prdtEntries n) := by
  have hentries := toNat_prdtEntries cmdListBase hpos hle
  refine ⟨hentries, ?_⟩
  rw [preparePrdtEntries, hentries, Nat.add_sub_cancel]
  exact divides_prdtLoop (by omega) (by omega)

/-- Thirty-two sectors are two full entries. -/
theorem prdtEntries_tile_full : (preparePrdtEntries 0x1000
      (prepareCmdHeader 0 32).prdtEntries 32).length = 2 ∧
    Divides 0x1000 32 (preparePrdtEntries 0x1000 (prepareCmdHeader 0 32).prdtEntries 32) :=
  ⟨by decide, (prdtEntries_tile 0 0x1000 32 (by decide) (by decide)).2⟩

end Ahci

end Borrrdex
