import Borrrdex.Basic
import Mathlib.Tactic

/-!
# Disks and the partitions on them

A `disk_device` reads and writes whole sectors; a `partition_device` is a window on it, checks
each request against its bounds and forwards what passes.  The disk is a parameter: a state and
two transfers on it, each answering with a code, the caller's buffer as it is left and the new
state.

The check is one comparison, `lba * block_size + count > (end_lba - start_lba) * block_size`, in
64-bit arithmetic.  It sets a number of bytes against a number of sectors and takes the inclusive
`end_lba` for an exclusive one, so it turns away the last sector of a partition and lets a long
request run past its end.  `Confined` is what a partition ought to guarantee, and the main result
gives the requests for which it does.
-/

set_option autoImplicit false

namespace Borrrdex

variable {σ : Type}

/-- A transfer of `count` sectors from or to `lba`: the code returned, the caller's buffer and the
disk's state afterwards. -/
abbrev Transfer (σ : Type) := U64 → U32 → List Byte → σ → ℤ × List Byte × σ

/-- `disk_device`, as its partitions see it. -/
structure Disk (σ : Type) where
  blockSize : U32
  readDiskBlock : Transfer σ
  writeDiskBlock : Transfer σ

/-- `partition_device`: the first and the last sector. -/
structure Partition where
  startLba : U64
  endLba : U64

namespace Partition

/-- The guard that `read_block` and `write_block` share. -/
def outOfRange (p : Partition) (blockSize : U32) (lba : U64) (count : U32) : Bool :=
  lba * blockSize.setWidth 64 + count.setWidth 64 >
    (p.endLba - p.startLba) * blockSize.setWidth 64

/-- A guarded transfer: 2 and nothing done, or the disk's answer to the request moved by the start
of the partition. -/
def guarded (p : Partition) (blockSize : U32) (disk : Transfer σ) : Transfer σ :=
  fun lba count buffer s ↦
    if p.outOfRange blockSize lba count then (2, buffer, s)
    else disk (lba + p.startLba) count buffer s

/-- `read_block`. -/
def readBlock (p : Partition) (disk : Disk σ) : Transfer σ :=
  p.guarded disk.blockSize disk.readDiskBlock

/-- `write_block`. -/
def writeBlock (p : Partition) (disk : Disk σ) : Transfer σ :=
  p.guarded disk.blockSize disk.writeDiskBlock

/-! ## The guard, in natural numbers -/

/-- What the guard lets through. -/
def Passes (p : Partition) (blockSize : U32) (lba : U64) (count : U32) : Prop :=
  (lba.toNat * blockSize.toNat + count.toNat) % 2 ^ 64 ≤
    ((p.endLba.toNat - p.startLba.toNat) * blockSize.toNat) % 2 ^ 64

/-- The request lies inside the partition. -/
def Fits (p : Partition) (lba : U64) (count : U32) : Prop :=
  lba.toNat + count.toNat ≤ p.endLba.toNat - p.startLba.toNat + 1

theorem outOfRange_eq_false_iff {p : Partition} (hp : p.startLba ≤ p.endLba) (blockSize : U32)
    (lba : U64) (count : U32) :
    p.outOfRange blockSize lba count = false ↔ p.Passes blockSize lba count := by
  have hsub : (p.endLba - p.startLba).toNat = p.endLba.toNat - p.startLba.toNat :=
    BitVec.toNat_sub_of_le hp
  simp only [outOfRange, Passes, gt_iff_lt, BitVec.lt_def, BitVec.toNat_add, BitVec.toNat_mul,
    BitVec.toNat_setWidth, hsub, decide_eq_false_iff_not, not_lt]
  simp

/-- **The guard without overflow**: the sectors of a request are counted as if they were bytes,
rounded up to sectors, and the last sector of the partition is left out. -/
theorem passes_iff {p : Partition} {blockSize : U32} {lba : U64} {count : U32}
    (hb : 0 < blockSize.toNat) (hl : lba.toNat * blockSize.toNat + count.toNat < 2 ^ 64)
    (hd : (p.endLba.toNat - p.startLba.toNat) * blockSize.toNat < 2 ^ 64) :
    p.Passes blockSize lba count ↔
      lba.toNat + (count.toNat + blockSize.toNat - 1) / blockSize.toNat ≤
        p.endLba.toNat - p.startLba.toNat := by
  rw [Passes, Nat.mod_eq_of_lt hl, Nat.mod_eq_of_lt hd]
  have hceil : ∀ x, (count.toNat + blockSize.toNat - 1) / blockSize.toNat ≤ x ↔
      count.toNat ≤ x * blockSize.toNat := by
    intro x
    rw [Nat.div_le_iff_le_mul_add_pred hb, Nat.mul_comm]
    omega
  constructor
  · intro h
    have hlt : lba.toNat * blockSize.toNat ≤
        (p.endLba.toNat - p.startLba.toNat) * blockSize.toNat := by omega
    have hle := Nat.le_of_mul_le_mul_right hlt hb
    have h2 := (hceil (p.endLba.toNat - p.startLba.toNat - lba.toNat)).mpr (by
      rw [Nat.sub_mul]
      omega)
    omega
  · intro h
    have hle := (Nat.le_add_right _ _).trans h
    have h2 := (hceil (p.endLba.toNat - p.startLba.toNat - lba.toNat)).mp (by omega)
    rw [Nat.sub_mul] at h2
    have h3 : lba.toNat * blockSize.toNat ≤
        (p.endLba.toNat - p.startLba.toNat) * blockSize.toNat := Nat.mul_le_mul_right _ hle
    omega

/-! ## Confinement -/

end Partition

/-- A disk that also keeps the requests made to it. -/
def Disk.recording (disk : Disk σ) : Disk (σ × List (U64 × U32)) :=
  let record (transfer : Transfer σ) : Transfer (σ × List (U64 × U32)) :=
    fun lba count buffer s ↦
      let r := transfer lba count buffer s.1
      (r.1, r.2.1, r.2.2, s.2 ++ [(lba, count)])
  { blockSize := disk.blockSize
    readDiskBlock := record disk.readDiskBlock
    writeDiskBlock := record disk.writeDiskBlock }

namespace Partition

/-- **What a partition ought to guarantee of a request**, `requests` being what it asked of its
disk and `code` what it returned: the disk is asked exactly when the request fits, every sector it
is asked for belongs to the partition, and a request that does not fit gets an error. -/
structure Confined (p : Partition) (isError : ℤ → Prop) (lba : U64) (count : U32) (code : ℤ)
    (requests : List (U64 × U32)) : Prop where
  forwarded_iff : requests ≠ [] ↔ p.Fits lba count
  inside : ∀ r ∈ requests, ∀ i < r.2.toNat,
    p.startLba.toNat ≤ r.1.toNat + i ∧ r.1.toNat + i ≤ p.endLba.toNat
  refused : ¬ p.Fits lba count → requests = [] ∧ isError code

/-- The sectors of a request that fits, moved by the start of the partition. -/
theorem inside_of_fits {p : Partition} (hp : p.startLba ≤ p.endLba) {lba : U64} {count : U32}
    (hfit : p.Fits lba count) {i : ℕ} (hi : i < count.toNat) :
    p.startLba.toNat ≤ (lba + p.startLba).toNat + i ∧
      (lba + p.startLba).toNat + i ≤ p.endLba.toNat := by
  have hle : p.startLba.toNat ≤ p.endLba.toNat := hp
  have hend := p.endLba.isLt
  rw [Fits] at hfit
  have hadd : (lba + p.startLba).toNat = lba.toNat + p.startLba.toNat := by
    rw [BitVec.toNat_add, Nat.mod_eq_of_lt (by omega)]
  omega

/-- A guarded transfer is confined exactly when the guard and the request agree and, for a request
refused, the code 2 is an error. -/
theorem confined_guarded_iff {p : Partition} (hp : p.startLba ≤ p.endLba) (isError : ℤ → Prop)
    (blockSize : U32) (disk : Transfer (σ × List (U64 × U32))) (lba : U64) (count : U32)
    (buffer : List Byte) (s : σ)
    (hdisk : (disk (lba + p.startLba) count buffer (s, [])).2.2.2 =
      [(lba + p.startLba, count)]) :
    (p.Confined isError lba count (p.guarded blockSize disk lba count buffer (s, [])).1
      (p.guarded blockSize disk lba count buffer (s, [])).2.2.2) ↔
    (p.Fits lba count ∧ p.Passes blockSize lba count) ∨
      (¬ p.Fits lba count ∧ ¬ p.Passes blockSize lba count ∧ isError 2) := by
  rw [← outOfRange_eq_false_iff hp]
  cases hout : p.outOfRange blockSize lba count with
  | true =>
    simp only [guarded, hout, if_true]
    constructor
    · intro h
      have hfit : ¬ p.Fits lba count := fun hf ↦ h.forwarded_iff.mpr hf rfl
      exact Or.inr ⟨hfit, by simp, (h.refused hfit).2⟩
    · rintro (⟨-, h⟩ | ⟨hfit, -, herr⟩)
      · cases h
      · exact ⟨iff_of_false (fun h ↦ h rfl) hfit, fun r hr ↦ absurd hr List.not_mem_nil,
          fun _ ↦ ⟨rfl, herr⟩⟩
  | false =>
    simp only [guarded, hout, Bool.false_eq_true, if_false, hdisk]
    constructor
    · intro h
      exact Or.inl ⟨h.forwarded_iff.mp (List.cons_ne_nil _ _), trivial⟩
    · rintro (⟨hfit, -⟩ | ⟨-, h, -⟩)
      · refine ⟨iff_of_true (List.cons_ne_nil _ _) hfit, ?_, fun h ↦ absurd hfit h⟩
        intro r hr i hi
        obtain rfl := List.mem_singleton.mp hr
        exact inside_of_fits hp hfit hi
      · exact absurd trivial h

/-- A read and a write of the same sectors are confined. -/
def ConfinesBoth (p : Partition) (isError : ℤ → Prop) (disk : Disk σ) (lba : U64) (count : U32)
    (buffer : List Byte) (s : σ) : Prop :=
  let read := p.readBlock disk.recording lba count buffer (s, [])
  let write := p.writeBlock disk.recording lba count buffer (s, [])
  p.Confined isError lba count read.1 read.2.2.2 ∧
    p.Confined isError lba count write.1 write.2.2.2

theorem confinesBoth_iff (isError : ℤ → Prop) (disk : Disk σ) (p : Partition)
    (hp : p.startLba ≤ p.endLba) (lba : U64) (count : U32) (buffer : List Byte) (s : σ) :
    p.ConfinesBoth isError disk lba count buffer s ↔
      (p.Fits lba count ∧ p.Passes disk.blockSize lba count) ∨
        (¬ p.Fits lba count ∧ ¬ p.Passes disk.blockSize lba count ∧ isError 2) := by
  have hguarded := fun transfer ↦
    confined_guarded_iff hp isError disk.blockSize transfer lba count buffer s
  exact (and_congr (hguarded disk.recording.readDiskBlock rfl)
    (hguarded disk.recording.writeDiskBlock rfl)).trans and_self_iff

/-- **When a partition confines a request**, read or write: when the request fits and passes the
guard, or does neither and 2 counts as an error.  To the callers, who all test for a negative code,
2 is none, so that there every request has to fit and pass.  By `passes_iff` the guard refuses the
last sector and accepts requests far longer than what is left of the partition. -/
theorem partition_confined_iff (disk : Disk σ) (p : Partition)
    (hp : p.startLba ≤ p.endLba) (lba : U64) (count : U32) (buffer : List Byte) (s : σ) :
    (∀ isError, p.ConfinesBoth isError disk lba count buffer s ↔
      (p.Fits lba count ∧ p.Passes disk.blockSize lba count) ∨
        (¬ p.Fits lba count ∧ ¬ p.Passes disk.blockSize lba count ∧ isError 2)) ∧
    (p.ConfinesBoth (· < 0) disk lba count buffer s ↔
      p.Fits lba count ∧ p.Passes disk.blockSize lba count) := by
  refine ⟨fun isError ↦ confinesBoth_iff isError disk p hp lba count buffer s, ?_⟩
  rw [confinesBoth_iff (· < 0) disk p hp]
  have htwo : ¬ (2 : ℤ) < 0 := by decide
  exact or_iff_left fun h ↦ htwo h.2.2

/-- A disk that answers every request with its count, for the examples below. -/
def plainDisk : Disk Unit where
  blockSize := 512
  readDiskBlock := fun _ count buffer s ↦ (count.toNat, buffer, s)
  writeDiskBlock := fun _ count buffer s ↦ (count.toNat, buffer, s)

theorem partition_confined_first_sector :
    (2048 : U64) ≤ 4095 ∧
    ({ startLba := 2048, endLba := 4095 } : Partition).ConfinesBoth (· < 0) plainDisk 0 1 [] () :=
  ⟨by decide, (partition_confined_iff plainDisk { startLba := 2048, endLba := 4095 }
    (by decide) 0 1 [] ()).2.mpr ⟨by rw [Fits]; decide, by rw [Passes]; decide⟩⟩

/-- A partition of the sectors 2048 to 4095 forwards a write of eight sectors at its sector 2046,
which reaches the sector 4101, and does not forward a read of its last sector; whatever counts as
an error, neither is confined. -/
theorem partition_not_confined :
    (let p : Partition := { startLba := 2048, endLba := 4095 }
     let write := p.writeBlock plainDisk.recording 2046 8 [] ((), [])
     write.2.2.2 = [(4094, 8)] ∧ ∀ isError, ¬ p.Confined isError 2046 8 write.1 write.2.2.2) ∧
    (let p : Partition := { startLba := 2048, endLba := 4095 }
     let read := p.readBlock plainDisk.recording 2047 1 [] ((), [])
     read.2.2.2 = [] ∧ ∀ isError, ¬ p.Confined isError 2047 1 read.1 read.2.2.2) := by
  refine ⟨⟨by decide, ?_⟩, ⟨by decide, ?_⟩⟩
  · intro isError h
    have h7 := h.inside (4094, 8) (by decide) 7 (by decide)
    revert h7
    decide
  · intro isError h
    have hfit : ({ startLba := 2048, endLba := 4095 } : Partition).Fits 2047 1 := by
      rw [Fits]
      decide
    exact h.forwarded_iff.mpr hfit (by decide)

end Partition

end Borrrdex
