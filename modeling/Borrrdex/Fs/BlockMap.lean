import Borrrdex.Fs.BlockCache
import Borrrdex.Fs.Ext2Read

/-!
# The blocks of a file

An ext2 inode has twelve direct block pointers, and one each to a tree of pointer blocks of depth
one, two and three.  `ext2Path` is that layout: which of the inode's words to start from, and which
entry to take in each pointer block.

`find_data_block` decides by four ranges of the index which lookups to make.  `lookup` is that
decision, and `findDataBlock_eq` says that the rest is following it from block to block.  The second
range starts at 12 where it should start at 12 + N and ends N too early, and in the third the index
is never reduced, so behind the single indirect block every lookup is wrong: `mapsLikeExt2_iff`.
-/

set_option autoImplicit false

namespace Borrrdex

open Splice

variable {σ : Type}

/-! ## The layout -/

/-- Where the number of a file's `i`-th block is, with `n` entries to a pointer block: the inode's
word to start from, and the entries to follow. -/
def ext2Path (n i : ℕ) : ℕ × List ℕ :=
  if i < 12 then (i, [])
  else if i < 12 + n then (12, [i - 12])
  else if i < 12 + n + n ^ 2 then
    let j := i - 12 - n
    (13, [j / n, j % n])
  else
    let j := i - 12 - n - n ^ 2
    (14, [j / n ^ 2, j / n % n, j % n])

/-- The layout uses the entries that a pointer block has. -/
theorem ext2Path_lt {n i : ℕ} (h : i < 12 + n + n ^ 2 + n ^ 3) : ∀ e ∈ (ext2Path n i).2, e < n := by
  rw [ext2Path]
  split
  · simp
  split
  · simp
    omega
  split
  · next hsingle hdouble =>
    have hn : 0 < n := by
      rcases Nat.eq_zero_or_pos n with rfl | hn
      · simp at hdouble
        omega
      · exact hn
    have hdiv : (i - 12 - n) / n < n := by
      rw [Nat.div_lt_iff_lt_mul hn, ← pow_two]
      omega
    simp [hdiv, Nat.mod_lt _ hn]
  · next hdouble =>
    have hn : 0 < n := by
      rcases Nat.eq_zero_or_pos n with rfl | hn
      · simp at h hdouble
        omega
      · exact hn
    have hdiv : (i - 12 - n - n ^ 2) / n ^ 2 < n := by
      rw [Nat.div_lt_iff_lt_mul (by positivity), show n * n ^ 2 = n ^ 3 by ring]
      omega
    simp [hdiv, Nat.mod_lt _ hn]

namespace Ext2Volume

open VolumeState

variable (v : Ext2Volume σ)

/-- The number of entries of a pointer block. -/
def entries : ℕ := v.blockSize.toNat / 4

/-- An entry of a pointer block on the disk. -/
def entryOnDisk (block : U32) (i : ℕ) : U32 := v.wordAt (v.blockBytes block) i

/-- **The block of a file, by the layout.** -/
def mappedBlock (inode : Ext2File) (i : ℕ) : U32 :=
  (ext2Path v.entries i).2.foldl v.entryOnDisk (inode.iBlock (ext2Path v.entries i).1)

/-- The same, with every pointer block where it lies. -/
def fileBlock (inode : Ext2File) (i : ℕ) : U32 :=
  (ext2Path v.entries i).2.foldl (fun block i ↦ v.wordAt (v.blockContents block) i)
    (inode.iBlock (ext2Path v.entries i).1)

/-- The map of the twelve blocks and of those of the single indirect block, if that is addressed. -/
theorem mappedBlock_eq_fileBlock (inode : Ext2File) {i : ℕ} (hi : i < 12 + v.entries)
    (h : 12 ≤ i → v.Addressed (inode.iBlock 12)) :
    v.mappedBlock inode i = v.fileBlock inode i := by
  rw [mappedBlock, fileBlock, ext2Path, if_pos hi]
  split
  · rfl
  next hge =>
    simp only [List.foldl_cons, List.foldl_nil, entryOnDisk, (h (not_lt.mp hge)).blockBytes_eq]

/-! ## The lookups of `find_data_block` -/

/-- Which word of the inode `find_data_block` starts from and, for each pointer block, whether it is
read through the cache and the index used into the buffer; `none` is `-EINVAL`. -/
def lookup (index : U32) : Option (ℕ × List (Bool × U32)) :=
  let ind : U32 := 12
  let entries := v.blockSize / 4
  if index < ind then some (index.toNat, [])
  else if index < ind + entries then some (12, [(true, index - ind)])
  else
    let max := ind + entries * entries
    if index < max then
      let index := index - ind
      some (13, [(true, index / entries), (false, index % entries)])
    else if index > max + entries * v.blockSize * v.blockSize then none
    else
      let index := index - ind
      some (14, [(true, index / (entries * entries)), (true, index / entries),
        (true, index % entries)])

/-- The lookups themselves. -/
def follow : List (Bool × U32) → U32 → List Byte → VolumeState σ → ℤ × VolumeState σ
  | [], block, _, s => (block.toNat, s)
  | (cache, i) :: path, block, buffer, s =>
    match v.indirect block cache i buffer s with
    | (none, _, s) => (1, s)
    | (some next, buffer, s) => follow path next buffer s

theorem follow_cons (cache : Bool) (i : U32) (path : List (Bool × U32)) (block : U32)
    (buffer : List Byte) (s : VolumeState σ) : v.follow ((cache, i) :: path) block buffer s =
      match v.indirect block cache i buffer s with
      | (none, _, s) => (1, s)
      | (some next, buffer, s) => v.follow path next buffer s :=
  rfl

theorem findDataBlock_direct (inode : Ext2File) {index : U32} (s : VolumeState σ)
    (h : index < 12) : v.findDataBlock inode index s =
      (((inode.iBlock index.toNat).toNat : ℤ), s) := by
  rw [findDataBlock]
  exact if_pos h

/-- **`find_data_block` follows its lookups**, in a buffer it allocates. -/
theorem findDataBlock_eq (inode : Ext2File) {index : U32} (s : VolumeState σ)
    (h : ¬ index < 12) : v.findDataBlock inode index s =
      match v.lookup index with
      | none => (-v.errno.einval, { s with mallocs := s.mallocs + 1 })
      | some (slot, path) => v.follow path (inode.iBlock slot) (v.mallocBlock s.mallocs)
          { s with mallocs := s.mallocs + 1 } := by
  rw [findDataBlock, lookup]
  dsimp only
  rw [if_neg h, if_neg h]
  by_cases hsingle : index < 12 + v.blockSize / 4
  · rw [if_pos hsingle, if_pos hsingle]
    dsimp only
    rw [follow_cons]
    obtain ⟨_ | block, buffer, t⟩ := v.indirect _ true (index - 12) _ _ <;> rfl
  rw [if_neg hsingle, if_neg hsingle]
  by_cases hdouble : index < 12 + v.blockSize / 4 * (v.blockSize / 4)
  · rw [if_pos hdouble, if_pos hdouble]
    dsimp only
    rw [follow_cons]
    obtain ⟨_ | next, buffer, t⟩ := v.indirect _ true ((index - 12) / (v.blockSize / 4)) _ _
    · rfl
    dsimp only
    rw [follow_cons]
    obtain ⟨_ | block, buffer, t⟩ := v.indirect next _ _ _ _ <;> rfl
  rw [if_neg hdouble, if_neg hdouble]
  split
  · rfl
  dsimp only
  rw [follow_cons]
  obtain ⟨_ | next, buffer, t⟩ := v.indirect (inode.iBlock 14) _ _ _ _
  · rfl
  dsimp only
  rw [follow_cons]
  obtain ⟨_ | next, buffer, t⟩ := v.indirect next _ _ _ _
  · rfl
  dsimp only
  rw [follow_cons]
  obtain ⟨_ | block, buffer, t⟩ := v.indirect next _ _ _ _ <;> rfl

/-! ## Following the lookups -/

theorem state_indirect (b : U32) (cache : Bool) (i : U32) (buffer : List Byte)
    (s : VolumeState σ) :
    (v.indirect b cache i buffer s).2.2 = (v.readBlock b buffer cache s).2.2 := by
  rw [indirect]
  dsimp only
  split <;> rfl

theorem log_indirect (b : U32) (cache : Bool) (i : U32) (buffer : List Byte) (s : VolumeState σ) :
    (v.indirect b cache i buffer s).2.2.log = s.log ++ [v.fetchable s b cache] := by
  rw [state_indirect, log_readBlock]

theorem prefix_follow (path : List (Bool × U32)) (block : U32) (buffer : List Byte)
    (s : VolumeState σ) : s.log <+: (v.follow path block buffer s).2.log := by
  induction path generalizing block buffer s with
  | nil => exact List.prefix_rfl
  | cons first path ih =>
    have hfirst := v.prefix_indirect block first.1 first.2 buffer s
    rw [follow_cons]
    split
    · next hread =>
      rw [hread] at hfirst
      exact hfirst
    · next hread =>
      rw [hread] at hfirst
      exact hfirst.trans (ih _ _ _)

/-- A pointer block that can be fetched is read whole. -/
theorem indirect_fetchable {b : U32} {cache : Bool} {buffer : List Byte} {s : VolumeState σ}
    (h : v.fetchable s b cache = true) (hlen : buffer.length = v.blockSize.toNat) (i : U32) :
    ∃ t, v.indirect b cache i buffer s =
      (some (v.entryOnDisk b i.toNat), v.blockBytes b, t) := by
  obtain ⟨hcode, hbytes⟩ := v.readBlock_fetchable h hlen
  refine ⟨(v.readBlock b buffer cache s).2.2, ?_⟩
  rw [indirect]
  dsimp only
  rw [if_neg (not_lt.mpr hcode), hbytes, entryOnDisk]

/-- **Lookups all of whose blocks can be fetched** give the entry they lead to. -/
theorem follow_of_asked (path : List (Bool × U32)) (block : U32) {buffer : List Byte}
    {s : VolumeState σ} (hlen : buffer.length = v.blockSize.toNat)
    (hall : ∀ e ∈ asked s (v.follow path block buffer s).2, e = true) :
    (v.follow path block buffer s).1 =
      (path.foldl (fun b e ↦ v.entryOnDisk b e.2.toNat) block).toNat := by
  induction path generalizing block buffer s with
  | nil => rfl
  | cons first path ih =>
    obtain ⟨cache, i⟩ := first
    have hlog := v.log_indirect block cache i buffer s
    have hprefix : (v.indirect block cache i buffer s).2.2.log <+:
        (v.follow ((cache, i) :: path) block buffer s).2.log := by
      rw [follow_cons]
      split
      · next hread => rw [hread]
      · next hread =>
        rw [hread]
        exact v.prefix_follow _ _ _ _
    rw [asked_trans (hlog ▸ List.prefix_append _ _) hprefix, asked_of_eq_append hlog,
      List.singleton_append, List.forall_mem_cons] at hall
    obtain ⟨t, hread⟩ := v.indirect_fetchable hall.1 hlen i
    have hrest := hall.2
    rw [follow_cons, hread] at hrest ⊢
    exact ih _ (v.length_blockBytes block) hrest

/-! ## Agreement with the layout -/

theorem toNat_entries : (v.blockSize / 4).toNat = v.entries := by
  rw [BitVec.toNat_udiv, entries]
  rfl

theorem entries_eq : v.entries = 2 ^ (8 + v.logBlockSize) := by
  rw [entries, toNat_blockSize, show 10 + v.logBlockSize = 8 + v.logBlockSize + 2 by omega,
    pow_succ' 2 (8 + v.logBlockSize + 1), pow_succ']
  omega

/-- The lookup of the blocks behind the first twelve, as far as the single indirect block has
them. -/
theorem lookup_single {index : U32} (hdirect : ¬ index < 12)
    (hindex : index.toNat < 12 + v.entries) : v.lookup index = some (12, [(true, index - 12)]) := by
  have hentries : v.entries ≤ 2 ^ 29 := by
    rw [entries_eq]
    have := v.logBlockSize_le
    exact Nat.pow_le_pow_right (by decide) (by omega)
  have hsum : (12 + v.blockSize / 4).toNat = 12 + v.entries := by
    rw [BitVec.toNat_add, toNat_entries, Nat.mod_eq_of_lt]
    · rfl
    · change 12 + _ < _
      omega
  rw [lookup]
  dsimp only
  rw [if_neg hdirect, if_pos (BitVec.lt_def.mpr (hsum ▸ hindex))]

/-- **One call maps a block as the layout does**, and stays inside its buffer. -/
structure MapsLikeExt2 (inode : Ext2File) (index : U32) (s : VolumeState σ) : Prop where
  value : (v.findDataBlock inode index s).1 = (v.mappedBlock inode index.toNat).toNat
  inside : ∀ slot path, v.lookup index = some (slot, path) → ∀ e ∈ path, e.2.toNat < v.entries

/-- The first twelve blocks and those of the single indirect block are mapped right. -/
theorem mapsLikeExt2_of_lt (inode : Ext2File) {index : U32} {s : VolumeState σ}
    (hindex : index.toNat < 12 + v.entries)
    (hall : ∀ e ∈ asked s (v.findDataBlock inode index s).2, e = true) :
    v.MapsLikeExt2 inode index s := by
  by_cases hdirect : index < 12
  · have hlt : index.toNat < 12 := hdirect
    refine ⟨?_, fun slot path hlookup ↦ ?_⟩
    · rw [v.findDataBlock_direct inode s hdirect, mappedBlock, ext2Path, if_pos hlt]
      rfl
    · rw [lookup] at hlookup
      dsimp only at hlookup
      rw [if_pos hdirect] at hlookup
      cases hlookup
      simp
  · have hge : ¬ index.toNat < 12 := hdirect
    have hsub : (index - 12).toNat = index.toNat - 12 := BitVec.toNat_sub_of_le (by bv_omega)
    have hsingle := v.lookup_single hdirect hindex
    have hentries : v.entries ≤ 2 ^ 29 := by
      rw [entries_eq]
      have := v.logBlockSize_le
      exact Nat.pow_le_pow_right (by decide) (by omega)
    refine ⟨?_, fun slot path hlookup ↦ ?_⟩
    · rw [v.findDataBlock_eq inode s hdirect, hsingle] at hall ⊢
      rw [v.follow_of_asked _ _ (v.length_mallocBlock _) hall, mappedBlock, ext2Path,
        if_neg hge, if_pos hindex]
      simp only [List.foldl_cons, List.foldl_nil, hsub]
    · rw [hsingle] at hlookup
      cases hlookup
      simp only [List.mem_singleton, forall_eq]
      omega

/-! ## Disagreement -/

/-- **The lookups behind the single indirect block**: there are none, or they leave the buffer, or
they are those of the double indirect block, with 12 + N not taken off the index but 12. -/
theorem lookup_of_le {index : U32} (hindex : 12 + v.entries ≤ index.toNat) :
    v.lookup index = none ∨
    (∃ path, v.lookup index = some (14, path) ∧ ∃ e ∈ path, v.entries ≤ e.2.toNat) ∨
    (index.toNat < 12 + v.entries ^ 2 ∧ ∃ i j, v.lookup index = some (13, [(true, i), (false, j)]) ∧
      i.toNat = (index.toNat - 12) / v.entries ∧ j.toNat = (index.toNat - 12) % v.entries) := by
  have hk := v.logBlockSize_le
  have hentries := v.entries_eq
  have hlt := index.isLt
  have hle : v.entries ≤ 2 ^ 29 := by
    rw [entries_eq]
    exact Nat.pow_le_pow_right (by decide) (by omega)
  have hpos : 0 < v.entries := by
    rw [entries_eq]
    exact Nat.two_pow_pos _
  have hdirect : ¬ index < 12 := by bv_omega
  have hsub : (index - 12).toNat = index.toNat - 12 := BitVec.toNat_sub_of_le (by bv_omega)
  have hsum : (12 + v.blockSize / 4).toNat = 12 + v.entries := by
    rw [BitVec.toNat_add, toNat_entries]
    exact Nat.mod_eq_of_lt (by change 12 + _ < _; omega)
  have hsingle : ¬ index < 12 + v.blockSize / 4 := by
    rw [BitVec.lt_def, hsum]
    omega
  have hsquare : (12 + v.blockSize / 4 * (v.blockSize / 4)).toNat =
      (12 + v.entries ^ 2) % 2 ^ 32 := by
    rw [BitVec.toNat_add, BitVec.toNat_mul, toNat_entries, pow_two]
    exact Nat.add_mod_mod 12 _ _
  rw [lookup]
  dsimp only
  rw [if_neg hdirect, if_neg hsingle]
  rcases Nat.lt_or_ge v.logBlockSize 8 with hsmall | hlarge
  · -- the square of N has 32 bits
    have hle : v.entries ≤ 2 ^ 15 := by
      rw [entries_eq]
      exact Nat.pow_le_pow_right (by decide) (by omega)
    have hsq : v.entries ^ 2 ≤ 2 ^ 30 := (Nat.pow_le_pow_left hle 2).trans (by decide)
    rw [Nat.mod_eq_of_lt (by omega)] at hsquare
    split
    · next hdouble =>
      rw [BitVec.lt_def, hsquare] at hdouble
      refine .inr (.inr ⟨hdouble, _, _, rfl, ?_, ?_⟩)
      · rw [BitVec.toNat_udiv, hsub, toNat_entries]
      · rw [BitVec.toNat_umod, hsub, toNat_entries]
    next hdouble =>
    rw [BitVec.lt_def, hsquare] at hdouble
    split
    · exact .inl rfl
    · refine .inr (.inl ⟨_, rfl, (true, (index - 12) / (v.blockSize / 4)), by simp, ?_⟩)
      dsimp only
      rw [BitVec.toNat_udiv, hsub, toNat_entries, Nat.le_div_iff_mul_le hpos, ← pow_two]
      omega
  · -- it has not, and both bounds wrap to 12
    have hzero : ∀ {n : ℕ}, 32 ≤ n → 2 ^ n % 2 ^ 32 = 0 := fun hn ↦
      Nat.mod_eq_zero_of_dvd (pow_dvd_pow 2 hn)
    have hsq : v.blockSize / 4 * (v.blockSize / 4) = 0 := by
      rw [← BitVec.toNat_inj, BitVec.toNat_mul, toNat_entries, entries_eq, ← pow_add]
      exact hzero (by omega)
    have hcube : v.blockSize / 4 * v.blockSize * v.blockSize = 0 := by
      rw [← BitVec.toNat_inj, BitVec.toNat_mul, BitVec.toNat_mul, toNat_entries, entries_eq,
        toNat_blockSize, Nat.mod_mul_mod, ← pow_add, ← pow_add]
      exact hzero (by omega)
    have hgt : index > 12 := by bv_omega
    rw [hsq, hcube, if_neg (show ¬ index < 12 + 0 from hdirect),
      if_pos (show index > 12 + 0 + 0 from hgt)]
    exact .inl rfl

/-- A volume every block of which can be read. -/
structure Healthy : Prop where
  fixed : v.media.Fixed
  le : ∀ b, b ≤ v.blockCount
  passes : ∀ b, v.passes b
  serves : ∀ b disk, v.serves b disk

variable {v}

theorem Healthy.follow (hv : v.Healthy) (path : List (Bool × U32)) (block : U32)
    (buffer : List Byte) {s : VolumeState σ} (hs : v.Coherent s) :
    ∀ e ∈ asked s (v.follow path block buffer s).2, e = true := by
  induction path generalizing block buffer s with
  | nil => simp [Ext2Volume.follow, asked]
  | cons first path ih =>
    obtain ⟨cache, i⟩ := first
    have hfetch := hs.fetchable (hv.le block) (hv.passes block) (hv.serves block s.disk) cache
    have hlog := v.log_indirect block cache i buffer s
    have hs' := hs.readBlock hv.fixed block buffer cache
    rw [← v.state_indirect _ _ i] at hs'
    rw [hfetch] at hlog
    rw [follow_cons]
    split
    · next hread =>
      rw [hread] at hlog
      rw [asked_of_eq_append hlog]
      simp
    · next hread =>
      rw [hread] at hlog hs'
      rw [asked_trans (hlog ▸ List.prefix_append _ _) (v.prefix_follow _ _ _ _),
        asked_of_eq_append hlog, List.singleton_append, List.forall_mem_cons]
      exact ⟨rfl, ih _ _ hs'⟩

/-- On such a volume no call asks for a block in vain. -/
theorem Healthy.findDataBlock (hv : v.Healthy) (inode : Ext2File) (index : U32)
    {s : VolumeState σ} (hs : v.Coherent s) :
    ∀ e ∈ asked s (v.findDataBlock inode index s).2, e = true := by
  by_cases hdirect : index < 12
  · rw [v.findDataBlock_direct inode s hdirect]
    simp [asked]
  · rw [v.findDataBlock_eq inode s hdirect]
    split
    · simp [asked]
    · exact hv.follow (s := { s with mallocs := s.mallocs + 1 }) _ _ _ (hs.congr hv.fixed rfl)

end Ext2Volume

namespace DiskImage

open Ext2Volume

variable (image : DiskImage) {k : ℕ} (h : k ≤ 21)

theorem healthy_toVolume (hfails : ∀ lba, image.fails lba = false) :
    (image.toVolume 0xffffffff k h).Healthy where
  fixed := image.fixed_toMedia
  le b := by
    change b ≤ 0xffffffff#32
    bv_omega
  passes b := image.passes_toVolume _ h b
  serves b disk := by
    refine List.all_eq_true.mpr fun i _ ↦ ?_
    rw [hfails]
    rfl

/-- The word of a pointer block, by its bytes. -/
theorem entryOnDisk_toVolume (blockCount : U32) {b : U32} {i : ℕ}
    (hb : (b.toNat + 1) * (image.toVolume blockCount k h).blockSize.toNat ≤ 2 ^ 41)
    (hi : i < (image.toVolume blockCount k h).entries) :
    let p := b.toNat * (image.toVolume blockCount k h).blockSize.toNat + 4 * i
    (image.toVolume blockCount k h).entryOnDisk b i =
      image.bytes (p + 3) ++ image.bytes (p + 2) ++ image.bytes (p + 1) ++ image.bytes p := by
  set v := image.toVolume blockCount k h
  rw [entries] at hi
  have hdrop := drop_four (l := v.blockBytes b) (p := 4 * i)
    (f := fun j ↦ image.bytes (b.toNat * v.blockSize.toNat + (4 * i + j))) fun j hj ↦
      image.getElem?_blockBytes blockCount h hb (show 4 * i + j < v.blockSize.toNat by omega)
  rw [entryOnDisk, wordAt, hdrop]
  simp only [Nat.add_zero, Nat.add_assoc]

/-- A block of pointers at block 1, whose entry `sub` names block 2, and a block of pointers there,
whose entry `off` is 1. -/
def twoPointers (bs sub off : ℕ) : DiskImage where
  bytes p := if p = bs + 4 * sub then 2 else if p = 2 * bs + 4 * off then 1 else 0
  fails _ := false

theorem entryOnDisk_twoPointers {sub off e : ℕ} {b : U32} (hsub : sub < 2 ^ (8 + k))
    (hoff : off < 2 ^ (8 + k)) (he : e < 2 ^ (8 + k)) (hb : b.toNat ≤ 2) :
    ((twoPointers (2 ^ (10 + k)) sub off).toVolume 0xffffffff k h).entryOnDisk b e =
      if b.toNat = 1 ∧ e = sub then 2 else if b.toNat = 2 ∧ e = off then 1 else 0 := by
  have hbs : 2 ^ (10 + k) = 4 * 2 ^ (8 + k) := by
    rw [show 10 + k = 2 + (8 + k) by omega, pow_add]
    rfl
  have hbsle : 2 ^ (10 + k) ≤ 2 ^ 31 := Nat.pow_le_pow_right (by decide) (by omega)
  have hsize : ((twoPointers (2 ^ (10 + k)) sub off).toVolume 0xffffffff k h).blockSize.toNat =
      2 ^ (10 + k) := toNat_blockSize _
  have hroom : (b.toNat + 1) *
      ((twoPointers (2 ^ (10 + k)) sub off).toVolume 0xffffffff k h).blockSize.toNat ≤ 2 ^ 41 := by
    rw [hsize]
    exact (Nat.mul_le_mul (Nat.succ_le_succ hb) hbsle).trans (by decide)
  have hentry := entryOnDisk_toVolume (twoPointers (2 ^ (10 + k)) sub off) h 0xffffffff hroom
    (by rw [entries_eq]; exact he)
  have hbyte : ∀ j < 4, (twoPointers (2 ^ (10 + k)) sub off).bytes
      (b.toNat * 2 ^ (10 + k) + 4 * e + j) =
        if j = 0 then if b.toNat = 1 ∧ e = sub then 2 else if b.toNat = 2 ∧ e = off then 1 else 0
        else 0 := by
    intro j hj
    rw [twoPointers, hbs]
    dsimp only
    obtain hb | hb | hb : b.toNat = 0 ∨ b.toNat = 1 ∨ b.toNat = 2 := by omega
    all_goals
      rw [hb]
      split_ifs <;> first | rfl | omega | tauto
  rw [hentry, hsize, hbyte 3 (by decide), hbyte 2 (by decide), hbyte 1 (by decide),
    ← Nat.add_zero (b.toNat * 2 ^ (10 + k) + 4 * e), hbyte 0 (by decide)]
  split_ifs <;> first | rfl | contradiction

variable {index : U32}

/-- **Behind the single indirect block something goes wrong** in every geometry: the entry of the
double indirect block is one too far, or there is no lookup, or it leaves the buffer. -/
theorem exists_not_mapsLikeExt2 (hk : k ≤ 21) (hindex : 12 + 2 ^ (8 + k) ≤ index.toNat) :
    ∃ (v : Ext2Volume Unit) (inode : Ext2File) (s : VolumeState Unit), v.logBlockSize = k ∧
      (∀ e ∈ VolumeState.asked s (v.findDataBlock inode index s).2, e = true) ∧
      ¬ v.MapsLikeExt2 inode index s := by
  have hpos : 0 < 2 ^ (8 + k) := Nat.two_pow_pos _
  have hle : 2 ^ 8 ≤ 2 ^ (8 + k) := Nat.pow_le_pow_right (by decide) (by omega)
  set image := twoPointers (2 ^ (10 + k)) ((index.toNat - 12) / 2 ^ (8 + k))
    ((index.toNat - 12) % 2 ^ (8 + k)) with himage
  set v := image.toVolume 0xffffffff k hk with hv
  have hentries : v.entries = 2 ^ (8 + k) := v.entries_eq
  have hall := (image.healthy_toVolume hk fun _ ↦ rfl).findDataBlock ⟨0, fun _ ↦ 1⟩ index
    (coherent_new v (s := mounted) rfl)
  refine ⟨v, ⟨0, fun _ ↦ 1⟩, mounted, rfl, hall, fun hmaps ↦ ?_⟩
  have hdirect : ¬ index < 12 := by
    rw [BitVec.lt_def]
    change ¬ index.toNat < 12
    omega
  have hvalue := hmaps.value
  rw [← hv, v.findDataBlock_eq _ _ hdirect] at hall
  rw [v.findDataBlock_eq _ _ hdirect] at hvalue
  obtain hnone | ⟨path, hlookup, e, he, hge⟩ | ⟨hlt, i, j, hlookup, hi, hj⟩ :=
    v.lookup_of_le (hentries ▸ hindex)
  · rw [hnone] at hvalue
    have hpos := v.errno.einval_pos
    dsimp only at hvalue
    omega
  · exact absurd (hmaps.inside _ _ hlookup e he) (not_lt.mpr hge)
  · rw [hentries] at hlt hi hj
    have hsub : (index.toNat - 12) / 2 ^ (8 + k) < 2 ^ (8 + k) := by
      rw [Nat.div_lt_iff_lt_mul hpos, ← pow_two]
      omega
    have hoff := Nat.mod_lt (index.toNat - 12) hpos
    have hone : 1 ≤ (index.toNat - 12) / 2 ^ (8 + k) := by
      rw [Nat.le_div_iff_mul_le hpos]
      omega
    have hpred : (index.toNat - 12 - 2 ^ (8 + k)) / 2 ^ (8 + k) =
        (index.toNat - 12) / 2 ^ (8 + k) - 1 := by
      rw [← Nat.sub_mul_div, Nat.mul_one]
    rw [hlookup] at hall hvalue
    rw [v.follow_of_asked _ _ (v.length_mallocBlock _) hall, mappedBlock, ext2Path, hentries,
      if_neg (by omega), if_neg (by omega), if_pos (by omega)] at hvalue
    simp only [List.foldl_cons, List.foldl_nil, hi, hj, hpred, hv, himage] at hvalue
    rw [entryOnDisk_twoPointers hk hsub hoff hsub (by decide), if_pos ⟨by decide, rfl⟩,
      entryOnDisk_twoPointers hk hsub hoff hoff (by decide), if_neg (fun h ↦ by cases h.1),
      if_pos ⟨by decide, rfl⟩, entryOnDisk_twoPointers hk (e := _ - 1) hsub hoff (by omega)
        (by decide),
      if_neg (by omega), if_neg (fun h ↦ by cases h.1), entryOnDisk_twoPointers hk hsub hoff
        (Nat.mod_lt _ hpos) (by decide), if_neg (fun h ↦ by cases h.1),
      if_neg (fun h ↦ by cases h.1)] at hvalue
    exact absurd hvalue (by decide)

end DiskImage

namespace Ext2Volume

open VolumeState

/-- **Which blocks of a file are found**, for each block size: those the inode points to and those
of its single indirect block, and no other.  What is on the disk varies here, since a wrong lookup
may find the right block by chance. -/
theorem mapsLikeExt2_iff (k : ℕ) (hk : k ≤ 21) (index : U32) :
    (∀ (σ : Type) (v : Ext2Volume σ), v.logBlockSize = k → ∀ (inode : Ext2File) (s : VolumeState σ),
      (∀ e ∈ asked s (v.findDataBlock inode index s).2, e = true) →
        v.MapsLikeExt2 inode index s) ↔
    index.toNat < 12 + 2 ^ (8 + k) := by
  constructor
  · intro h
    by_contra hindex
    obtain ⟨v, inode, s, rfl, hall, hmaps⟩ :=
      DiskImage.exists_not_mapsLikeExt2 hk (not_lt.mp hindex)
    exact hmaps (h Unit v rfl inode s hall)
  · rintro hindex σ v rfl inode s hall
    exact v.mapsLikeExt2_of_lt inode (v.entries_eq ▸ hindex) hall

theorem mapsLikeExt2_kilobyte_blocks :
    (∀ (σ : Type) (v : Ext2Volume σ), v.logBlockSize = 0 → ∀ (inode : Ext2File) (s : VolumeState σ),
      (∀ e ∈ asked s (v.findDataBlock inode 267 s).2, e = true) → v.MapsLikeExt2 inode 267 s) ↔
    (267 : U32).toNat < 12 + 2 ^ (8 + 0) :=
  mapsLikeExt2_iff 0 (by decide) 267

/-- In blocks of a kilobyte, block 268 is the first one not found. -/
theorem not_mapsLikeExt2 :
    ¬ ∀ (σ : Type) (v : Ext2Volume σ), v.logBlockSize = 0 → ∀ (inode : Ext2File)
      (s : VolumeState σ), (∀ e ∈ asked s (v.findDataBlock inode 268 s).2, e = true) →
        v.MapsLikeExt2 inode 268 s := by
  intro h
  obtain ⟨v, inode, s, hk, hall, hmaps⟩ :=
    DiskImage.exists_not_mapsLikeExt2 (show 0 ≤ 21 by decide)
      (show 12 + 2 ^ (8 + 0) ≤ (268 : U32).toNat by decide)
  exact hmaps (h Unit v hk inode s hall)

end Ext2Volume

end Borrrdex
