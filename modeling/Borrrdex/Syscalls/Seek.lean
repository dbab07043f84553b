import Borrrdex.Syscalls.UserStores
import Mathlib.Tactic

/-!
# `sys_seek`

The offset comes in an unsigned register.  For `SEEK_SET` and `SEEK_CUR` that does no harm: a
position below zero wraps to one from `2 ^ 63` on, which is beyond the end of any file (`gt_iff`).
For `SEEK_END` the test for a positive offset rejects the negative ones with it, and the test behind
it, for a negative position, never holds.

`seeks_iff` is the exact condition: `sys_seek` does what it should unless it is asked for a position
that is before the end, and relative to it.
-/

set_option autoImplicit false

namespace Borrrdex

namespace Handlers

/-- The three modes. -/
inductive SeekMode
  | set | cur | fromEnd

/-- The number of a mode. -/
def SeekMode.number (abi : SysAbi) : SeekMode → U64
  | set => abi.seekSet
  | cur => abi.seekCur
  | fromEnd => abi.seekEnd

/-- The position that is asked for. -/
def SeekMode.target (pos size : U64) (offset : ℤ) : SeekMode → ℤ
  | set => offset
  | cur => pos.toNat + offset
  | fromEnd => size.toNat + offset

variable {κ : Type} {abi : SysAbi} {svc : Services κ} {regs : RegisterContext} {s : KernelState κ}
  {handle : ℕ} {mode : SeekMode}

/-- **What `sys_seek` should do** when the position `target` is asked for: go there and return it if
it is inside the file or at its end, and otherwise reject it without a change. -/
def Seeks (abi : SysAbi) (s : KernelState κ) (handle : ℕ) (target : ℤ)
    (result : ℤ × KernelState κ) :
    Prop :=
  let fd := s.handles handle
  let size := (s.nodes fd.node).size
  (0 ≤ target ∧ target ≤ size.toNat →
    result = (target, s.setFd handle { fd with pos := BitVec.ofInt 64 target })) ∧
  (¬ (0 ≤ target ∧ target ≤ size.toNat) → result = (abi.fail .einval, s))

/-- The test of `SEEK_SET` and `SEEK_CUR` is right for every offset. -/
theorem gt_iff {x size : U64} {t : ℤ} (hx : x = BitVec.ofInt 64 t) (hsize : size.toNat < 2 ^ 63)
    (hlo : -2 ^ 63 ≤ t) (hhi : t < 2 ^ 64) : x > size ↔ ¬ (0 ≤ t ∧ t ≤ size.toNat) := by
  have hxt : (x.toNat : ℤ) = t % 2 ^ 64 := by
    rw [hx, BitVec.toNat_ofInt]
    omega
  rw [gt_iff_lt, BitVec.lt_def]
  omega

/-- A position that is in a file is returned as it is. -/
theorem toInt_ofInt_of_le {t : ℤ} {size : U64} (hsize : size.toNat < 2 ^ 63)
    (h : 0 ≤ t ∧ t ≤ size.toNat) : (BitVec.ofInt 64 t).toInt = t := by
  rw [BitVec.toInt_ofInt]
  exact Int.bmod_eq_of_le (by omega) (by omega)

/-- What the calls that test the position itself do. -/
def seekTo (abi : SysAbi) (s : KernelState κ) (handle : ℕ) (pos : U64) : ℤ × KernelState κ :=
  let fd := s.handles handle
  if pos > (s.nodes fd.node).size then (abi.fail .einval, s)
  else (pos.toInt, s.setFd handle { fd with pos := pos })

theorem sysSeek_set (hopen : svc.getFileDesc ((scArg0 regs).setWidth 32) s = some handle)
    (hmode : scArg2 regs = abi.seekSet) :
    sysSeek abi svc regs s = seekTo abi s handle (scArg1 regs) := by
  simp only [sysSeek, seekTo, StateT.bind, bind, get, getThe, MonadStateOf.get, StateT.get, hopen,
    hmode, if_true, pure]
  split <;> rfl

theorem sysSeek_cur (hopen : svc.getFileDesc ((scArg0 regs).setWidth 32) s = some handle)
    (hmode : scArg2 regs = abi.seekCur) (hne : abi.seekCur ≠ abi.seekSet) :
    sysSeek abi svc regs s = seekTo abi s handle ((s.handles handle).pos + scArg1 regs) := by
  simp only [sysSeek, seekTo, StateT.bind, bind, get, getThe, MonadStateOf.get, StateT.get, hopen,
    hmode, if_neg hne, if_true, pure, BitVec.add_comm (scArg1 regs)]
  split <;> rfl

/-- Only the offset 0 is accepted. -/
theorem sysSeek_end (hopen : svc.getFileDesc ((scArg0 regs).setWidth 32) s = some handle)
    (hmode : scArg2 regs = abi.seekEnd) (hne : abi.seekEnd ≠ abi.seekSet)
      (hne' : abi.seekEnd ≠ abi.seekCur) :
    sysSeek abi svc regs s = if scArg1 regs > 0 then (abi.fail .einval, s)
      else seekTo abi s handle (s.nodes (s.handles handle).node).size := by
  simp only [sysSeek, seekTo, StateT.bind, bind, get, getThe, MonadStateOf.get, StateT.get, hopen,
    hmode, if_neg hne, if_neg hne', if_true, pure, gt_iff_lt, BitVec.lt_irrefl, if_false]
  split
  · rfl
  · next hpos =>
    have hzero : scArg1 regs = 0 := by
      rw [BitVec.not_lt] at hpos
      exact BitVec.le_zero_iff.mp hpos
    rw [hzero]
    simp only [BitVec.ofNat_eq_ofNat, BitVec.add_zero]
    rfl

/-- A call that tests the position that is asked for. -/
theorem seeks_seekTo {pos : U64} {t : ℤ} (hpos : pos = BitVec.ofInt 64 t)
    (hsize : (s.nodes (s.handles handle).node).size.toNat < 2 ^ 63) (hlo : -2 ^ 63 ≤ t)
    (hhi : t < 2 ^ 64) : Seeks abi s handle t (seekTo abi s handle pos) := by
  have hgt := gt_iff hpos hsize hlo hhi
  constructor
  · intro hin
    rw [seekTo, if_neg (mt hgt.mp (not_not.mpr hin)), hpos, toInt_ofInt_of_le hsize hin]
  · intro hout
    rw [seekTo, if_pos (hgt.mpr hout)]

/-- The offset is before the end and relative to it. -/
def SeekMode.BeforeEnd (size : U64) (offset : ℤ) : SeekMode → Prop
  | set => False
  | cur => False
  | fromEnd => -size.toNat ≤ offset ∧ offset < 0

/-- **`sys_seek` does what it should unless a position before the end is asked for with
`SEEK_END`.** -/
theorem seeks_iff (hopen : svc.getFileDesc ((scArg0 regs).setWidth 32) s = some handle)
    (hsize : (s.nodes (s.handles handle).node).size.toNat < 2 ^ 63)
    (hpos : (s.handles handle).pos.toNat ≤ (s.nodes (s.handles handle).node).size.toNat)
    (hnodup : [abi.seekSet, abi.seekCur, abi.seekEnd].Nodup)
    (hmode : scArg2 regs = mode.number abi) :
    Seeks abi s handle
        (mode.target (s.handles handle).pos (s.nodes (s.handles handle).node).size
          (scArg1 regs).toInt)
        (sysSeek abi svc regs s) ↔
      ¬ mode.BeforeEnd (s.nodes (s.handles handle).node).size (scArg1 regs).toInt := by
  obtain ⟨hset, hcur⟩ : (abi.seekSet ≠ abi.seekCur ∧ abi.seekSet ≠ abi.seekEnd) ∧
      abi.seekCur ≠ abi.seekEnd := by simpa using hnodup
  have hoffset := BitVec.toInt_lt (x := scArg1 regs)
  have hoffset' := BitVec.le_toInt (x := scArg1 regs)
  cases mode with
  | set =>
    refine iff_of_true ?_ not_false
    rw [sysSeek_set hopen hmode, SeekMode.target]
    exact seeks_seekTo (BitVec.ofInt_toInt).symm hsize (by omega) (by omega)
  | cur =>
    refine iff_of_true ?_ not_false
    have htarget : (s.handles handle).pos + scArg1 regs =
        BitVec.ofInt 64 ((s.handles handle).pos.toNat + (scArg1 regs).toInt) := by
      rw [BitVec.ofInt_add, BitVec.ofInt_toInt, BitVec.ofInt_natCast, BitVec.ofNat_toNat,
        BitVec.setWidth_eq]
    rw [sysSeek_cur hopen hmode hset.1.symm, SeekMode.target]
    exact seeks_seekTo htarget hsize (by omega) (by omega)
  | fromEnd =>
    have hself : (s.nodes (s.handles handle).node).size =
        BitVec.ofInt 64 (s.nodes (s.handles handle).node).size.toNat := by
      rw [BitVec.ofInt_natCast, BitVec.ofNat_toNat, BitVec.setWidth_eq]
    have hzero : scArg1 regs > 0 ↔ (scArg1 regs).toInt ≠ 0 := by
      rw [gt_iff_lt, BitVec.lt_def, BitVec.toInt_eq_toNat_cond]
      have hlt := (scArg1 regs).isLt
      change 0 < _ ↔ _
      split <;> omega
    rw [sysSeek_end hopen hmode hset.2.symm hcur.symm, SeekMode.target, SeekMode.BeforeEnd]
    by_cases hnone : (scArg1 regs).toInt = 0
    · rw [if_neg (mt hzero.mp (not_not.mpr hnone)), hnone, Int.add_zero]
      exact iff_of_true (seeks_seekTo hself hsize (by omega) (by omega)) (by omega)
    · rw [if_pos (hzero.mpr hnone)]
      constructor
      · rintro ⟨hin, -⟩ hbefore
        -- the error number is not a position
        have hcode := congrArg Prod.fst (hin (by omega))
        have hneg := abi.errno_pos .einval
        rw [SysAbi.fail] at hcode
        dsimp only at hcode
        omega
      · intro hbefore
        exact ⟨fun hin ↦ absurd hbefore (not_not.mpr (by omega)), fun _ ↦ rfl⟩

/-! ## The last byte of a file -/

/-- A file of ten bytes is open, at its beginning. -/
def openServices : Services Unit := { bareServices with getFileDesc := fun _ _ ↦ some 0 }

def tenBytes : KernelState Unit := { bareKernel with nodes := fun _ ↦ ⟨1, 0, 10, 0x8000⟩ }

theorem seeks_iff_tenBytes :
    Seeks librarySysAbi tenBytes 0 (SeekMode.set.target 0 10 4)
        (sysSeek librarySysAbi openServices ⟨3, 4, 0, 0⟩ tenBytes) ↔
      ¬ SeekMode.set.BeforeEnd 10 4 :=
  @seeks_iff Unit librarySysAbi openServices ⟨3, 4, 0, 0⟩ tenBytes 0 .set rfl (by decide)
    (by decide)
    (by decide) rfl

/-- `lseek(fd, -1, SEEK_END)` fails. -/
theorem not_seeks_lastByte : ¬ Seeks librarySysAbi tenBytes 0 (SeekMode.fromEnd.target 0 10 (-1))
    (sysSeek librarySysAbi openServices ⟨3, -1, 2, 0⟩ tenBytes) := by
  intro h
  have hcode : (-22 : ℤ) = 9 := congrArg Prod.fst (h.1 (by decide))
  exact absurd hcode (by decide)

end Handlers

end Borrrdex
