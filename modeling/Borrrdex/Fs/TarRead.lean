import Borrrdex.Fs.Tar

/-!
# Reading from an archive

`tar_volume::read` copies as many bytes as it is asked for, whatever is left of the file, and so
returns the right number only if the file has them.  It gives nothing behind the end, but at the end
it still gives what it is asked for: the padding, and the next entries.

Who reads to the end of a file does so by `tarRead_iff` of three parts: for a single call, for a
loop that stops when nothing more comes, which always gets more than the file, and for a descriptor,
whose position passes the end as soon as more is asked for than there is.
-/

set_option autoImplicit false

namespace Borrrdex

open Splice

namespace Tar

namespace TarVolume

variable (v : TarVolume) (eisdir inode : ℕ)

/-- The data of an entry, behind its header. -/
def data : List Byte :=
  (List.range (v.node inode).size).map fun i ↦
    v.state.mem.getD (512 * (v.node inode).header.getD 0 + 512 + i) 0

/-- How much of a file a call should return. -/
def wanted (off size : U64) : ℕ :=
  if off.toNat < (v.node inode).size then min size.toNat ((v.node inode).size - off.toNat) else 0

/-- A call is right: the number of bytes, and they are what is written to the buffer. -/
def ReadRight (off size : U64) (buf : List Byte) : Prop :=
  v.read eisdir inode off size buf = ((v.wanted inode off size : ℤ),
    splice buf 0 (((v.data inode).drop off.toNat).take (v.wanted inode off size)))

/-- `while((read = fs::read(node, off, chunk, buf)) > 0) off += read;`, with the bytes that have
been read in `seen`. -/
def readLoop (chunk : U64) (buf : List Byte) : ℕ → U64 → List Byte → Option (List Byte)
  | 0, _, _ => none
  | rounds + 1, off, seen =>
    let r := v.read eisdir inode off chunk buf
    if r.1 > 0 then
      readLoop chunk buf rounds (off + BitVec.ofInt 64 r.1) (seen ++ r.2.take r.1.toNat)
    else some seen

/-- The loop stops, and what has been read is the file. -/
def LoopRight (chunk : U64) (buf : List Byte) : Prop :=
  ∃ rounds, v.readLoop eisdir inode chunk buf rounds 0 [] = some (v.data inode)

/-- `fs::read(handle, size, buf)`, on a descriptor at `pos`: where it is then. -/
def advance (buf : List Byte) (pos size : U64) : U64 :=
  let ret := (v.read eisdir inode pos size buf).1
  if ret > 0 then pos + BitVec.ofInt 64 ret else pos

/-- The positions of a descriptor while it is read from with these sizes. -/
def positions (buf : List Byte) (sizes : List U64) : List U64 :=
  sizes.scanl (v.advance eisdir inode buf) 0

variable {v} {eisdir inode}

/-! ## A call -/

theorem length_data : (v.data inode).length = (v.node inode).size := by
  rw [data, List.length_map, List.length_range]

theorem read_eq (hfile : (v.node inode).isDir = false) (off size : U64) (buf : List Byte) :
    v.read eisdir inode off size buf =
      if off.toNat > (v.node inode).size ∨ size = 0 then (0, buf)
      else (size.toInt, splice buf 0 ((List.range size.toNat).map fun i ↦
        v.state.mem.getD (512 * (v.node inode).header.getD 0 + 512 + off.toNat + i) 0)) := by
  rw [read, hfile]
  rfl

theorem read_fst (hfile : (v.node inode).isDir = false) (off size : U64) (buf : List Byte) :
    (v.read eisdir inode off size buf).1 =
      if off.toNat > (v.node inode).size ∨ size = 0 then 0 else size.toInt := by
  rw [read_eq hfile]
  split
  · rfl
  · rfl

/-- The bytes that are asked for, where the file has them. -/
theorem slice_data {off n : ℕ} (h : off + n ≤ (v.node inode).size) :
    ((v.data inode).drop off).take n = (List.range n).map fun i ↦
      v.state.mem.getD (512 * (v.node inode).header.getD 0 + 512 + off + i) 0 := by
  rw [data, take_drop_map_range _ h]
  refine List.map_congr_left fun i _ ↦ ?_
  rw [Nat.add_assoc _ off]

/-- **When a call is right**: nothing is asked for, or nothing is left and the offset is behind the
end, or the file has all that is asked for. -/
theorem readRight_iff (hfile : (v.node inode).isDir = false) (off size : U64) (buf : List Byte) :
    v.ReadRight eisdir inode off size buf ↔ size = 0 ∨ (v.node inode).size < off.toNat ∨
      off.toNat < (v.node inode).size ∧ size.toNat ≤ (v.node inode).size - off.toNat := by
  have hsize := (v.node inode).size_lt
  rw [ReadRight, read_eq hfile, wanted]
  by_cases hnone : off.toNat > (v.node inode).size ∨ size = 0
  · have hzero : (if off.toNat < (v.node inode).size then
        min size.toNat ((v.node inode).size - off.toNat) else 0) = 0 := by
      rcases hnone with hoff | rfl
      · exact if_neg (by omega)
      · split
        · exact Nat.zero_min _
        · rfl
    rw [if_pos hnone, hzero, List.take_zero, splice_nil]
    refine iff_of_true rfl ?_
    rcases hnone with hoff | hzero
    · exact .inr (.inl hoff)
    · exact .inl hzero
  · have hpos : 0 < size.toNat := Nat.pos_of_ne_zero fun h ↦
      hnone (.inr (BitVec.eq_of_toNat_eq h))
    have hint := BitVec.toInt_eq_toNat_cond size
    rw [if_neg hnone]
    by_cases hfits : off.toNat < (v.node inode).size ∧
        size.toNat ≤ (v.node inode).size - off.toNat
    · rw [if_pos hfits.1, Nat.min_eq_left hfits.2, slice_data (by omega)]
      refine iff_of_true (Prod.ext ?_ rfl) (.inr (.inr hfits))
      rw [hint, if_pos (by omega)]
    · refine iff_of_false (fun heq ↦ ?_) fun h ↦ ?_
      · have hcode : size.toInt = _ := congrArg Prod.fst heq
        dsimp only at hcode
        split at hcode
        · split at hint <;> omega
        · split at hint <;> omega
      · rcases h with hzero | hoff | hfits'
        · exact hnone (.inr hzero)
        · exact hnone (.inl hoff)
        · exact hfits hfits'

/-! ## Loops -/

/-- **A loop gets more than the file**: it goes on at the end, as far as the end of the
next chunk. -/
theorem lt_length_readLoop (hfile : (v.node inode).isDir = false) {chunk : U64}
    (hchunk : 0 < chunk.toInt) (buf : List Byte) :
    ∀ (rounds : ℕ) (off : U64) (seen out : List Byte), seen.length = off.toNat →
      off.toNat ≤ (v.node inode).size ∨ (v.node inode).size < seen.length →
      v.readLoop eisdir inode chunk buf rounds off seen = some out →
      (v.node inode).size < out.length := by
  have hsize := (v.node inode).size_lt
  have hint := BitVec.toInt_eq_toNat_cond chunk
  have hlt : chunk.toNat < 2 ^ 63 ∧ chunk.toInt = chunk.toNat := by
    split at hint <;> omega
  intro rounds
  induction rounds with
  | zero => exact fun _ _ _ _ _ h ↦ nomatch h
  | succ rounds ih =>
    intro off seen out hseen hoff h
    rw [readLoop, read_fst hfile, read_eq hfile] at h
    by_cases hend : off.toNat > (v.node inode).size ∨ chunk = 0
    · have hzero : ¬ chunk = 0 := by
        rintro rfl
        exact absurd hchunk (by decide)
      rw [if_pos hend, if_neg (by decide)] at h
      obtain rfl := Option.some.inj h
      have := hend.resolve_right hzero
      omega
    · have hle : off.toNat ≤ (v.node inode).size := not_lt.mp (not_or.mp hend).1
      rw [if_neg hend, if_neg hend, if_pos hchunk] at h
      have hnext : (off + BitVec.ofInt 64 chunk.toInt).toNat = off.toNat + chunk.toNat := by
        rw [BitVec.ofInt_toInt, BitVec.toNat_add, Nat.mod_eq_of_lt (by omega)]
      have htake : ∀ f : ℕ → Byte, (splice buf 0 ((List.range chunk.toNat).map f)).take
          chunk.toInt.toNat = (List.range chunk.toNat).map f := fun f ↦ by
        have hlen : ((List.range chunk.toNat).map f).length = chunk.toInt.toNat := by
          rw [List.length_map, List.length_range, hlt.2, Int.toNat_natCast]
        rw [← hlen, take_splice_zero]
      rw [htake] at h
      have hseen' : (seen ++ (List.range chunk.toNat).map fun i ↦ v.state.mem.getD
          (512 * (v.node inode).header.getD 0 + 512 + off.toNat + i) 0).length =
            (off + BitVec.ofInt 64 chunk.toInt).toNat := by
        rw [List.length_append, List.length_map, List.length_range, hseen, hnext]
      exact ih _ _ out hseen' (by omega) h

/-- Where nothing can be asked for, nothing is read. -/
theorem readLoop_nonpos (hfile : (v.node inode).isDir = false) {chunk : U64}
    (hchunk : ¬ 0 < chunk.toInt) (buf : List Byte) (rounds : ℕ) (off : U64) (seen : List Byte) :
    v.readLoop eisdir inode chunk buf (rounds + 1) off seen = some seen := by
  rw [readLoop, if_neg]
  rw [read_fst hfile]
  split
  · decide
  · exact hchunk

/-- No chunk is right for a file with something in it. -/
theorem loopRight_iff (hfile : (v.node inode).isDir = false) (chunk : U64) (buf : List Byte) :
    v.LoopRight eisdir inode chunk buf ↔ (v.node inode).size = 0 ∧ ¬ 0 < chunk.toInt := by
  constructor
  · rintro ⟨rounds, hloop⟩
    by_cases hchunk : 0 < chunk.toInt
    · have hlt := lt_length_readLoop hfile hchunk buf rounds 0 [] _ rfl (.inl (Nat.zero_le _)) hloop
      exact absurd length_data.symm hlt.ne
    · refine ⟨?_, hchunk⟩
      cases rounds with
      | zero => cases hloop
      | succ rounds =>
        rw [readLoop_nonpos hfile hchunk] at hloop
        rw [← length_data, ← Option.some.inj hloop]
        rfl
  · rintro ⟨hzero, hchunk⟩
    have hdata : v.data inode = [] := List.eq_nil_of_length_eq_zero (length_data.trans hzero)
    refine ⟨1, ?_⟩
    rw [hdata]
    exact readLoop_nonpos hfile hchunk buf 0 0 []

/-! ## Descriptors -/

/-- How far a read of this size goes. -/
theorem toNat_advance (eisdir : ℕ) (hfile : (v.node inode).isDir = false) (buf : List Byte)
    {pos : U64} (hpos : pos.toNat ≤ (v.node inode).size) (size : U64) :
    (v.advance eisdir inode buf pos size).toNat = pos.toNat + size.toInt.toNat := by
  have hsize := (v.node inode).size_lt
  have hint := BitVec.toInt_eq_toNat_cond size
  rw [advance, read_fst hfile]
  by_cases hzero : size = 0
  · have hend : pos.toNat > (v.node inode).size ∨ size = 0 := .inr hzero
    rw [if_pos hend, hzero]
    rfl
  · have hin : ¬ (pos.toNat > (v.node inode).size ∨ size = 0) :=
      not_or.mpr ⟨not_lt.mpr hpos, hzero⟩
    rw [if_neg hin]
    split
    · rw [BitVec.ofInt_toInt, BitVec.toNat_add, Nat.mod_eq_of_lt (by split at hint <;> omega)]
      split at hint <;> omega
    · omega

/-- **A position stays in the file** as long as no more is read than the file has. -/
theorem positions_iff (eisdir : ℕ) (hfile : (v.node inode).isDir = false) (buf : List Byte)
    (sizes : List U64) {pos : U64} (hpos : pos.toNat ≤ (v.node inode).size) :
    (∀ p ∈ sizes.scanl (v.advance eisdir inode buf) pos, p.toNat ≤ (v.node inode).size) ↔
      pos.toNat + (sizes.map fun size ↦ size.toInt.toNat).sum ≤ (v.node inode).size := by
  induction sizes generalizing pos with
  | nil => simp
  | cons size sizes ih =>
    have hnext := toNat_advance eisdir hfile buf hpos size
    rw [List.scanl_cons, List.forall_mem_cons, List.map_cons, List.sum_cons, ← Nat.add_assoc,
      ← hnext]
    by_cases hin : (v.advance eisdir inode buf pos size).toNat ≤ (v.node inode).size
    · rw [ih hin]
      exact ⟨fun h ↦ h.2, fun h ↦ ⟨hpos, h⟩⟩
    · refine iff_of_false (fun h ↦ hin (h.2 _ ?_)) fun h ↦ hin ((Nat.le_add_right _ _).trans h)
      cases sizes with
      | nil => simp
      | cons size' sizes => simp

/-- **When reading is right**: a call, a loop to the end of the file, and a descriptor. -/
theorem tarRead_iff (hfile : (v.node inode).isDir = false) (buf : List Byte) :
    (∀ off size, v.ReadRight eisdir inode off size buf ↔ size = 0 ∨
      (v.node inode).size < off.toNat ∨ off.toNat < (v.node inode).size ∧
        size.toNat ≤ (v.node inode).size - off.toNat) ∧
    (∀ chunk, v.LoopRight eisdir inode chunk buf ↔
      (v.node inode).size = 0 ∧ ¬ 0 < chunk.toInt) ∧
    ∀ sizes, (∀ p ∈ v.positions eisdir inode buf sizes, p.toNat ≤ (v.node inode).size) ↔
      (sizes.map fun size ↦ size.toInt.toNat).sum ≤ (v.node inode).size := by
  refine ⟨fun off size ↦ readRight_iff hfile off size buf,
    fun chunk ↦ loopRight_iff hfile chunk buf, fun sizes ↦ ?_⟩
  have hiff := positions_iff eisdir hfile buf sizes (show (0 : U64).toNat ≤ _ from Nat.zero_le _)
  rwa [show (0 : U64).toNat = 0 from rfl, Nat.zero_add] at hiff

/-- A volume whose node 1 is a file of five bytes, in an archive where a second header follows. -/
def fiveBytes : TarVolume where
  nodeCount := 3
  state :=
    { mem := List.replicate 512 0x61 ++ List.replicate 5 0x64 ++ List.replicate 507 0x2E ++
        List.replicate 512 0x62
      nodes := fun inode ↦ { TarNode.fresh with
        header := some 0
        inode := inode
        flags := fsNodeFile
        size := 5
        size_lt := by decide }
      nextNode := 2
      blocksRead := []
      inodes := [] }

/-- A page for what is read. -/
def buffer : List Byte := List.replicate 4096 0

/-- The whole file at once is right, and so is a descriptor that is read to its end. -/
theorem tarRead_fiveBytes : fiveBytes.ReadRight 21 1 0 5 buffer ∧
    ∀ p ∈ fiveBytes.positions 21 1 buffer [2, 3], p.toNat ≤ 5 :=
  ⟨((tarRead_iff (v := fiveBytes) rfl buffer).1 0 5).mpr (by decide),
    ((tarRead_iff (v := fiveBytes) rfl buffer).2.2 [2, 3]).mpr (by decide)⟩

/-- Ten bytes at once are ten bytes; one more behind the fifth is one; a loop, and a descriptor, go
past the end. -/
theorem not_readRight_fiveBytes : ¬ fiveBytes.ReadRight 21 1 0 10 buffer ∧
    ¬ fiveBytes.ReadRight 21 1 5 1 buffer ∧ ¬ fiveBytes.LoopRight 21 1 4096 buffer ∧
    ¬ ∀ p ∈ fiveBytes.positions 21 1 buffer [4096], p.toNat ≤ 5 := by
  have hfile : (fiveBytes.node 1).isDir = false := rfl
  refine ⟨fun h ↦ ?_, fun h ↦ ?_, fun h ↦ ?_, fun h ↦ ?_⟩
  · exact absurd ((readRight_iff hfile 0 10 buffer).mp h) (by decide)
  · exact absurd ((readRight_iff hfile 5 1 buffer).mp h) (by decide)
  · exact absurd ((loopRight_iff hfile 4096 buffer).mp h) (by decide)
  · have hiff := positions_iff 21 hfile buffer [4096]
      (show (0 : U64).toNat ≤ _ from Nat.zero_le _)
    exact absurd (hiff.mp h) (by decide)

end TarVolume

end Tar

end Borrrdex
