import Borrrdex.Fs.DiskImage

/-!
# The cache of blocks

`read_block` can answer from a cache, and a caller should not be able to tell.  `Coherent` is what
every sequence of calls keeps: a cached block that passes the partition's check is what is on the
disk, and the disk serves it.

Where the two ways of reading part is in what they make of a failure.  The cached one returns the
truth value of `do_disk_read(..) < 0` in place of the code, and neither looks at the 2 with which
the partition refuses a request, so that what `malloc` left is cached as the block.  And both
compare the block number with `block_count` so that `block_count` itself passes.  A block from 2 TiB
on is not found by either, since the product `block_num * sectors_per_block` has 32 bits.
-/

set_option autoImplicit false

namespace Borrrdex

open Splice

variable {σ : Type}

namespace Ext2Volume

variable (v : Ext2Volume σ)

/-- **What is cached is on the disk**: a block of the volume, if the partition lets it through, and
its bytes. -/
def Coherent (s : VolumeState σ) : Prop :=
  ∀ b cached, s.cache.get b = some cached →
    b ≤ v.blockCount ∧ (v.passes b → v.serves b s.disk ∧ cached = v.blockBytes b)

/-- A volume just mounted. -/
theorem coherent_new {s : VolumeState σ} (h : s.cache = LruCache.new 50 true) : v.Coherent s := by
  intro b cached hget
  rw [h] at hget
  cases hget

variable {v} {b : U32} {buffer : List Byte} {s : VolumeState σ}

/-- What is not served, and passes the partition, fails. -/
theorem doDiskRead_neg (hfixed : v.media.Fixed) (hpass : v.passes b) {disk : σ}
    (hserves : ¬ v.serves b disk) : (v.doDiskRead b buffer disk).1 < 0 := by
  rw [doDiskRead, Partition.readBlock, Partition.guarded, hpass, if_neg (by decide)]
  exact hfixed.failed _ _ _ _ (Bool.eq_false_iff.mpr hserves)

theorem doDiskRead_eq_of_not_passes (hpass : ¬ v.passes b) (disk : σ) :
    v.doDiskRead b buffer disk = (2, buffer, disk) := by
  rw [doDiskRead, Partition.readBlock, Partition.guarded, if_pos (Bool.not_eq_false _ ▸ hpass)]

theorem serves_congr (hfixed : v.media.Fixed) (disk disk' : σ) :
    v.serves b disk ↔ v.serves b disk' := by
  rw [serves, serves, hfixed.served_eq _ _ disk disk']

/-- The disk's state is of no matter. -/
theorem Coherent.congr (hfixed : v.media.Fixed) {s' : VolumeState σ} (h : v.Coherent s)
    (hcache : s'.cache = s.cache) : v.Coherent s' := by
  intro b cached hget
  rw [hcache] at hget
  obtain ⟨hle, hbytes⟩ := h b cached hget
  refine ⟨hle, fun hpass ↦ ?_⟩
  rw [serves_congr hfixed s'.disk s.disk]
  exact hbytes hpass

/-- **Every call keeps the cache coherent.** -/
theorem Coherent.readBlock (hfixed : v.media.Fixed) (h : v.Coherent s) (b : U32)
    (buffer : List Byte) (cache : Bool) : v.Coherent (v.readBlock b buffer cache s).2.2 := by
  rw [Ext2Volume.readBlock]
  dsimp only
  split
  · exact h.congr hfixed rfl
  next hle =>
  split
  · split
    · exact h.congr hfixed rfl
    next hmiss =>
    split
    · exact h.congr hfixed rfl
    next hcode =>
    intro b' cached hget
    have hset : (b' = b ∧ cached = (v.doDiskRead b (v.mallocBlock s.mallocs) s.disk).2.1) ∨
        s.cache.get b' = some cached := by
      cases hs : s.cache.set b (v.doDiskRead b (v.mallocBlock s.mallocs) s.disk).2.1 with
      | none =>
        rw [hs] at hget
        exact .inr hget
      | some r =>
        rw [hs] at hget
        exact LruCache.get_of_set hs hget
    obtain ⟨rfl, rfl⟩ | hget := hset
    · refine ⟨BitVec.not_lt.mp hle, fun hpass ↦ ?_⟩
      have hserves : v.serves b' s.disk := by
        by_contra hserves
        exact hcode (doDiskRead_neg hfixed hpass hserves)
      obtain ⟨_, _, -, hread⟩ := v.doDiskRead_served hpass hserves (v.length_mallocBlock s.mallocs)
      rw [hread]
      exact ⟨(serves_congr hfixed _ _).mp hserves, rfl⟩
    · have hdisk : v.Coherent { s with
          disk := (v.doDiskRead b (v.mallocBlock s.mallocs) s.disk).2.2 } := h.congr hfixed rfl
      exact hdisk b' cached hget
  · exact h.congr hfixed rfl

/-- Calls, one after the other. -/
def readBlocks (v : Ext2Volume σ) (calls : List (U32 × List Byte × Bool)) (s : VolumeState σ) :
    VolumeState σ :=
  calls.foldl (fun s call ↦ (v.readBlock call.1 call.2.1 call.2.2 s).2.2) s

theorem Coherent.readBlocks (hfixed : v.media.Fixed) (h : v.Coherent s)
    (calls : List (U32 × List Byte × Bool)) : v.Coherent (v.readBlocks calls s) := by
  induction calls generalizing s with
  | nil => exact h
  | cons call calls ih => exact ih (h.readBlock hfixed _ _ _)

/-! ## Transparency -/

/-- **A caller cannot tell whether a block comes from the cache**: with and without it, a call fails
or not, one that does not fills the buffer with the block, and a block beyond the volume is
refused. -/
structure Transparent (v : Ext2Volume σ) (s : VolumeState σ) (b : U32) : Prop where
  neg_iff : ∀ buffer, buffer.length = v.blockSize.toNat →
    ((v.readBlock b buffer true s).1 < 0 ↔ (v.readBlock b buffer false s).1 < 0)
  filled : ∀ buffer, buffer.length = v.blockSize.toNat → ∀ cache,
    0 ≤ (v.readBlock b buffer true s).1 → 0 ≤ (v.readBlock b buffer false s).1 →
      (v.readBlock b buffer cache s).2.1 = v.blockContents b
  refused : v.blockCount ≤ b → ∀ buffer, buffer.length = v.blockSize.toNat → ∀ cache,
    (v.readBlock b buffer cache s).1 < 0

/-- Without the cache, a block of the volume is read from the disk. -/
theorem readBlock_false (hle : b ≤ v.blockCount) :
    (v.readBlock b buffer false s).1 = (v.doDiskRead b buffer s.disk).1 ∧
      (v.readBlock b buffer false s).2.1 = (v.doDiskRead b buffer s.disk).2.1 := by
  rw [Ext2Volume.readBlock, if_neg (BitVec.not_lt.mpr hle), if_neg (by decide)]
  exact ⟨rfl, rfl⟩

/-- In a coherent state a block that the disk serves can be fetched, from wherever it comes. -/
theorem Coherent.fetchable (h : v.Coherent s) (hle : b ≤ v.blockCount) (hpass : v.passes b)
    (hserves : v.serves b s.disk) (cache : Bool) : v.fetchable s b cache = true := by
  rw [Ext2Volume.fetchable, Bool.and_eq_true, decide_eq_true_eq]
  refine ⟨hle, ?_⟩
  have hdisk : (!v.partition.outOfRange v.disk.blockSize (v.blockLba b) v.sectorsPerBlock &&
      v.media.served (v.blockLba b + v.partition.startLba) v.sectorsPerBlock s.disk) = true := by
    rw [show _ = false from hpass, show _ = true from hserves]
    rfl
  cases cache with
  | false => exact hdisk
  | true =>
    cases hget : s.cache.get b with
    | none => simpa only [if_true] using hdisk
    | some cached =>
      simp only [if_true, decide_eq_true_eq]
      exact ((h b cached hget).2 hpass).2

/-- What is read is the block: its number is not too large, or the sectors that are read in its
place hold the same bytes. -/
def ReadsBlock (v : Ext2Volume σ) (b : U32) : Prop :=
  v.Addressed b ∨ v.blockBytes b = v.blockContents b

theorem ReadsBlock.eq (h : v.ReadsBlock b) : v.blockBytes b = v.blockContents b :=
  h.elim Addressed.blockBytes_eq id

theorem Coherent.transparent (h : v.Coherent s) (hlt : b < v.blockCount) (hpass : v.passes b)
    (hserves : v.serves b s.disk) (hreads : v.ReadsBlock b) : v.Transparent s b := by
  have hle : b ≤ v.blockCount := BitVec.le_of_lt hlt
  have hfetch := fun (buffer : List Byte) (hlen : buffer.length = v.blockSize.toNat) cache ↦
    v.readBlock_fetchable (h.fetchable hle hpass hserves cache) hlen
  refine ⟨fun buffer hlen ↦ ?_,
    fun buffer hlen cache _ _ ↦ (hfetch buffer hlen cache).2.trans hreads.eq, ?_⟩
  · exact iff_of_false (not_lt.mpr (hfetch buffer hlen true).1)
      (not_lt.mpr (hfetch buffer hlen false).1)
  · exact fun hge ↦ absurd hlt (BitVec.not_lt.mpr hge)

/-- A block beyond the volume. -/
theorem readBlock_of_gt (hgt : v.blockCount < b) (buffer : List Byte) (cache : Bool) :
    (v.readBlock b buffer cache s).1 < 0 := by
  rw [Ext2Volume.readBlock, if_pos hgt]
  exact Int.negSucc_lt_zero 0

theorem transparent_of_gt (hgt : v.blockCount < b) : v.Transparent s b := by
  have hneg := readBlock_of_gt (s := s) hgt
  refine ⟨fun buffer _ ↦ iff_of_true (hneg _ _) (hneg _ _), fun buffer _ _ hpos ↦ ?_,
    fun _ buffer _ cache ↦ hneg buffer cache⟩
  exact absurd (hneg buffer true) (not_lt.mpr hpos)

/-- What the partition refuses is not refused by the volume, and the buffer is left as it was. -/
theorem not_transparent_of_not_passes (hle : b ≤ v.blockCount) (hpass : ¬ v.passes b)
    (hcached : ∀ buffer, ¬ (v.readBlock b buffer true s).1 < 0) : ¬ v.Transparent s b := by
  intro h
  have hown : ∀ buffer, buffer.length = v.blockSize.toNat → buffer = v.blockContents b := by
    intro buffer hlen
    have hdisk : v.doDiskRead b buffer s.disk = _ := doDiskRead_eq_of_not_passes hpass s.disk
    obtain ⟨hcode, hbytes⟩ :
        (v.readBlock b buffer false s).1 = (v.doDiskRead b buffer s.disk).1 ∧
          (v.readBlock b buffer false s).2.1 = (v.doDiskRead b buffer s.disk).2.1 :=
      readBlock_false hle
    rw [hdisk] at hcode hbytes
    rw [← h.filled buffer hlen false (not_lt.mp (hcached buffer)) (hcode ▸ Int.natCast_nonneg 2),
      hbytes]
  have hzero := hown (List.replicate _ 0) List.length_replicate
  have hone := hown (List.replicate _ 1) List.length_replicate
  exact absurd ((List.replicate_right_inj v.blockSize_pos.ne').mp (hzero.trans hone.symm))
    (by decide)

/-- **Whether a block is transparent** does not depend on the calls before: it is if it lies beyond
`block_count`, or before it and the partition lets it through, the disk serves it, and what is read
is the block. -/
theorem transparent_iff (hfixed : v.media.Fixed) (hmounted : s.cache = LruCache.new 50 true)
    (calls : List (U32 × List Byte × Bool)) (b : U32) :
    v.Transparent (v.readBlocks calls s) b ↔ v.blockCount < b ∨
      (b < v.blockCount ∧ v.passes b ∧ v.serves b s.disk ∧ v.ReadsBlock b) := by
  have hcoherent := (v.coherent_new hmounted).readBlocks hfixed calls
  rw [serves_congr hfixed s.disk (v.readBlocks calls s).disk]
  generalize v.readBlocks calls s = s at hcoherent ⊢
  constructor
  · intro h
    refine or_iff_not_imp_left.mpr fun hgt ↦ ?_
    have hle : b ≤ v.blockCount := BitVec.not_lt.mp hgt
    have hlen := v.length_mallocBlock 0
    have hcached : ∀ buffer, ¬ (v.readBlock b buffer true s).1 < 0 := fun buffer ↦ by
      rw [readBlock_neg_iff]
      exact hgt
    have hne : b ≠ v.blockCount := fun heq ↦
      hcached _ (h.refused (BitVec.le_of_eq heq.symm) _ hlen true)
    have hpass : v.passes b := by_contra fun hpass ↦
      not_transparent_of_not_passes hle hpass hcached h
    have hserves : v.serves b s.disk := by
      by_contra hserves
      -- the disk fails, and the cached call does not say so
      have hneg : (v.doDiskRead b (v.mallocBlock 0) s.disk).1 < 0 :=
        doDiskRead_neg hfixed hpass hserves
      rw [← (readBlock_false hle).1] at hneg
      exact hcached _ ((h.neg_iff _ hlen).mpr hneg)
    have hfetch := v.readBlock_fetchable (hcoherent.fetchable hle hpass hserves false) hlen
    have hfilled := h.filled _ hlen false (not_lt.mp (hcached _)) hfetch.1
    exact ⟨BitVec.lt_of_le_ne hle hne, hpass, hserves, .inr (hfetch.2.symm.trans hfilled)⟩
  · rintro (hgt | ⟨hlt, hpass, hserves, hreads⟩)
    · exact transparent_of_gt hgt
    · exact hcoherent.transparent hlt hpass hserves hreads

/-- A disk of zeros. -/
def zeroImage : DiskImage := ⟨fun _ ↦ 0, fun _ ↦ false⟩

theorem transparent_zeroImage :
    let v := zeroImage.toVolume 40 0 (by decide)
    v.Transparent (v.readBlocks [(3, [], true), (40, [], true)] DiskImage.mounted) 3 :=
  (transparent_iff zeroImage.fixed_toMedia rfl _ 3).mpr
    (.inr ⟨by decide, zeroImage.passes_toVolume 40 _ 3, by decide, .inl (by decide)⟩)

/-- A block that cannot be read: the cached call returns 1, the other one -1. -/
theorem not_transparent_failing :
    ¬ (DiskImage.toVolume ⟨fun _ ↦ 0, fun _ ↦ true⟩ 40 0 (by decide)).Transparent
      DiskImage.mounted 3 := by
  intro h
  have hneg : ((DiskImage.toVolume ⟨fun _ ↦ 0, fun _ ↦ true⟩ 40 0 (by decide)).doDiskRead 3
      (List.replicate 1024 0) ()).1 < 0 :=
    doDiskRead_neg (DiskImage.fixed_toMedia ⟨fun _ ↦ 0, fun _ ↦ true⟩)
      (DiskImage.passes_toVolume _ 40 (by decide : 0 ≤ 21) 3) (by decide)
  rw [← (readBlock_false (s := DiskImage.mounted) (by decide)).1] at hneg
  have hcached := (h.neg_iff _ List.length_replicate).mpr hneg
  rw [readBlock_neg_iff] at hcached
  exact absurd hcached (by decide)

end Ext2Volume

end Borrrdex
