import Borrrdex.Lib.Splice
import Borrrdex.Storage.AhciCalls
import Borrrdex.Storage.Device

/-!
# Reading from an AHCI port

`ahci_port::read_disk_block`, one call after another.  What can go wrong in a call — every slot
busy, the wait for a bounce buffer interrupted, no buffer free, a command failing — is decided
outside of it, so the port is given a `Fate` for each call; the disk's contents do not change.

The function has five ways to return, and their codes follow no one convention: `-EBUSY`, `EINTR`
(positive), 4, 1 (a failed command, through `int e = do_read(..) != 0`) and the sector count.
`PortDisk.served` says which fates move the data, and `readDiskBlock_served` is all a caller can
rely on: of the other codes only one is negative.
-/

set_option autoImplicit false

namespace Borrrdex

open Splice

/-- The error numbers the storage code uses.  They come from the C library's `abi-bits/errno.h`
and are positive. -/
structure Errno where
  eintr : ℕ
  ebusy : ℕ
  einval : ℕ
  eintr_pos : 0 < eintr
  ebusy_pos : 0 < ebusy
  einval_pos : 0 < einval

/-- The numbers one C library uses. -/
def Errno.library : Errno := ⟨4, 16, 22, by decide, by decide, by decide⟩

namespace Ahci

/-- What a call meets: the command register and the buffer locks as they are when it looks, the
answer of the semaphore, and for each of its commands whether it completes without an error. -/
structure Fate where
  commandIssue : ℕ → Bool
  waited : Bool
  bufLocks : ℕ → Bool
  commands : ℕ → Bool

/-- The fates of the calls to come, and how many calls there were. -/
structure PortState where
  fates : ℕ → Fate
  calls : ℕ

/-- A port with its disk, in sectors of 512 bytes. -/
structure PortDisk where
  errno : Errno
  slotCount : ℕ
  media : ℕ → List Byte
  media_length : ∀ n, (media n).length = 512

/-- `acquire_buffer`. -/
def acquireBuffer (errno : Errno) (fate : Fate) : ℤ :=
  if !fate.waited then -errno.eintr
  else
    match (List.range 8).find? fun i ↦ !fate.bufLocks i with
    | some i => i
    | none => -1

/-- The sizes of the commands of a request: the `while` loop's full buffers and what is left. -/
def chunks (count : U32) : List ℕ :=
  List.replicate (count.toNat / maxSectors) maxSectors ++
    if count.toNat % maxSectors = 0 then [] else [count.toNat % maxSectors]

namespace PortDisk

/-- The commands of a request from the `i`-th on: each fills the bounce buffer, which is copied to
`offset` in the caller's, until one fails. -/
def readChunks (d : PortDisk) (commands : ℕ → Bool) :
    List ℕ → ℕ → U64 → ℕ → List Byte → Bool × List Byte
  | [], _, _, _, buffer => (true, buffer)
  | n :: ns, i, lba, offset, buffer =>
    if commands i then
      d.readChunks commands ns (i + 1) (lba + BitVec.ofNat 64 n) (offset + n * 512)
        (splice buffer offset (sectors d.media lba.toNat n).flatten)
    else (false, buffer)

/-- `read_disk_block`. -/
def readDiskBlock (d : PortDisk) : Transfer PortState :=
  fun lba count buffer s ↦
    let fate := s.fates s.calls
    let s := { s with calls := s.calls + 1 }
    match findCmdslot fate.commandIssue d.slotCount with
    | none => (-d.errno.ebusy, buffer, s)
    | some _ =>
      let bufferIdx := acquireBuffer d.errno fate
      if bufferIdx = -d.errno.eintr then (d.errno.eintr, buffer, s)
      else if bufferIdx < 0 ∨ bufferIdx > 7 then (4, buffer, s)
      else
        let (ok, buffer) := d.readChunks fate.commands (chunks count) 0 lba 0 buffer
        if ok then (count.toInt, buffer, s) else (1, buffer, s)

/-- The port as a `disk_device`; what `write_disk_block` does is left open. -/
def toDisk (d : PortDisk) (writeDiskBlock : Transfer PortState) : Disk PortState where
  blockSize := 512
  readDiskBlock := d.readDiskBlock
  writeDiskBlock := writeDiskBlock

/-- The bytes of `count` sectors. -/
def contents (d : PortDisk) (lba : U64) (count : U32) : List Byte :=
  (sectors d.media lba.toNat count.toNat).flatten

/-- The call to come moves the data: it finds a slot and a buffer, and no command fails. -/
def served (d : PortDisk) (count : U32) (s : PortState) : Bool :=
  let fate := s.fates s.calls
  (findCmdslot fate.commandIssue d.slotCount).isSome && decide (0 ≤ acquireBuffer d.errno fate) &&
    (List.range (chunks count).length).all fate.commands

theorem acquireBuffer_lt (errno : Errno) (fate : Fate) : acquireBuffer errno fate ≤ 7 := by
  rw [acquireBuffer]
  split
  · have := errno.eintr_pos
    omega
  · split
    · next i hi =>
      have := List.mem_range.mp (List.mem_of_find?_eq_some hi)
      omega
    · decide

theorem sum_chunks (count : U32) : (chunks count).sum = count.toNat := by
  have hdiv := Nat.div_add_mod count.toNat maxSectors
  rw [chunks, List.sum_append, List.sum_replicate, smul_eq_mul]
  split
  · next h =>
    rw [List.sum_nil]
    rw [h] at hdiv
    rw [Nat.mul_comm]
    exact hdiv
  · rw [List.sum_singleton, Nat.mul_comm]
    exact hdiv

theorem length_flatten_sectors (d : PortDisk) (lba n : ℕ) :
    (sectors d.media lba n).flatten.length = n * 512 := by
  rw [List.length_flatten, sectors, List.map_map]
  have hconst : (List.range n).map (List.length ∘ fun i ↦ d.media ((lba + i) % 2 ^ 48)) =
      (List.range n).map fun _ ↦ 512 := List.map_congr_left fun i _ ↦ d.media_length _
  rw [hconst, List.map_const', List.sum_replicate, List.length_range, smul_eq_mul]

/-- Sector addresses only matter modulo 2^48, which 2^64 is a multiple of. -/
theorem sectors_add (d : PortDisk) (lba : U64) (k n : ℕ) :
    sectors d.media (lba + BitVec.ofNat 64 k).toNat n = sectors d.media (lba.toNat + k) n := by
  refine List.map_congr_left fun i _ ↦ ?_
  rw [BitVec.toNat_add, BitVec.toNat_ofNat]
  congr 1
  omega

/-- **The chunks join up**: when every command succeeds, the caller's buffer has the bytes of all
the sectors. -/
theorem readChunks_ok (d : PortDisk) (commands : ℕ → Bool) (ns : List ℕ) (i : ℕ) (lba : U64)
    (offset : ℕ) (buffer : List Byte) (hcmd : ∀ j < ns.length, commands (i + j) = true)
    (hlen : offset + ns.sum * 512 ≤ buffer.length) :
    d.readChunks commands ns i lba offset buffer =
      (true, splice buffer offset (sectors d.media lba.toNat ns.sum).flatten) := by
  induction ns generalizing i lba offset buffer with
  | nil => simp [readChunks, sectors]
  | cons n ns ih =>
    have hi : commands i = true := hcmd 0 (by simp)
    rw [List.sum_cons] at hlen ⊢
    have hn := d.length_flatten_sectors lba.toNat n
    rw [readChunks, if_pos hi, ih]
    · rw [← hn, splice_splice (by omega), sectors_add, sectors_append, List.flatten_append]
    · intro j hj
      have := hcmd (j + 1) (by simpa using hj)
      rwa [show i + 1 + j = i + (j + 1) by omega]
    · rw [length_splice (by omega)]
      omega

/-- **A call that is served** fills the buffer with the disk's bytes and returns the count. -/
theorem readDiskBlock_served (d : PortDisk) {lba : U64} {count : U32} {buffer : List Byte}
    {s : PortState} (h : d.served count s = true) (hlen : count.toNat * 512 ≤ buffer.length) :
    d.readDiskBlock lba count buffer s =
      (count.toInt, splice buffer 0 (d.contents lba count), { s with calls := s.calls + 1 }) := by
  simp only [served, Bool.and_eq_true, decide_eq_true_eq, List.all_eq_true, List.mem_range] at h
  obtain ⟨⟨hslot, hbuf⟩, hcmd⟩ := h
  obtain ⟨slot, hslot⟩ := Option.isSome_iff_exists.mp hslot
  have hne : acquireBuffer d.errno (s.fates s.calls) ≠ -d.errno.eintr := by
    have := d.errno.eintr_pos
    omega
  have hle := acquireBuffer_lt d.errno (s.fates s.calls)
  have hchunks := d.readChunks_ok (s.fates s.calls).commands (chunks count) 0 lba 0 buffer
    (by simpa using hcmd) (by rw [sum_chunks]; omega)
  simp only [readDiskBlock, hslot, if_neg hne, hchunks, sum_chunks, contents]
  rw [if_neg (by omega), if_pos trivial]

end PortDisk

end Ahci

end Borrrdex
