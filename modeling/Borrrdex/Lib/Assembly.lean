import Borrrdex.Lib.FlatMemory

/-!
# A fragment of x86-64

A routine is a list of labelled blocks, each of which falls through to the next one.  Of the machine
there are the registers and the flag that the routines here use.  `Leaves p code c m` says that the
routine returns, when it goes on with `code`, and leaves the memory `m`.

There is one lemma for each instruction, which says what is executed next, and there are two for
loops: `leaves_wordLoop` for a loop on `lodsd` and `stosd`, and `leaves_blockLoop` for one on blocks
of 16 bytes that counts up to zero.
-/

set_option autoImplicit false

namespace Assembly

open FlatMemory

/-- The registers. -/
inductive Reg
  | rax
  | rcx
  | rdx
  | rsi
  | rdi
deriving DecidableEq

/-- Their values, the zero flag, and memory.  The direction flag is clear. -/
structure Cpu where
  rax : BitVec 64
  rcx : BitVec 64
  rdx : BitVec 64
  rsi : BitVec 64
  rdi : BitVec 64
  zf : Bool
  xmm0 : ℕ
  mem : Mem

/-- The instructions, with labels from `L`. -/
inductive Instr (L : Type)
  | mov (d s : Reg)
  | shr (d : Reg) (k : ℕ)
  | shl (d : Reg) (k : ℕ)
  | and (d : Reg) (v : BitVec 64)
  | add (d : Reg) (v : BitVec 64)
  | sub (d s : Reg)
  | neg (d : Reg)
  | lea (d b i : Reg)
  | lodsd
  | stosd
  | loop (l : L)
  | jz (l : L)
  | jnz (l : L)
  | prefetchnta
  | movdqu (b i : Reg)
  | movntdq (b i : Reg)
  | sfence
  | ret

/-- A routine. -/
abbrev Program (L : Type) := List (L × List (Instr L))

/-- What is executed from a label on. -/
def Program.codeAt {L : Type} [DecidableEq L] (p : Program L) (l : L) : List (Instr L) :=
  (p.dropWhile fun b ↦ b.1 ≠ l).flatMap fun b ↦ b.2

/-- What comes after an instruction. -/
inductive Outcome (L : Type)
  | next (c : Cpu)
  | jump (l : L) (c : Cpu)
  | done (m : Mem)
  | fault

namespace Cpu

/-- The value of a register. -/
def get (c : Cpu) : Reg → BitVec 64
  | .rax => c.rax
  | .rcx => c.rcx
  | .rdx => c.rdx
  | .rsi => c.rsi
  | .rdi => c.rdi

/-- A register gets a value. -/
def set (c : Cpu) (v : BitVec 64) : Reg → Cpu
  | .rax => { c with rax := v }
  | .rcx => { c with rcx := v }
  | .rdx => { c with rdx := v }
  | .rsi => { c with rsi := v }
  | .rdi => { c with rdi := v }

/-- A register gets a result, and the zero flag says whether it is zero. -/
def setFlag (c : Cpu) (v : BitVec 64) (d : Reg) : Cpu := { c.set v d with zf := v == 0 }

/-- One instruction.  `movntdq` faults at an address that is not aligned. -/
def exec {L : Type} (c : Cpu) : Instr L → Outcome L
  | .mov d s => .next (c.set (c.get s) d)
  | .shr d k => .next (c.setFlag (c.get d >>> k) d)
  | .shl d k => .next (c.setFlag (c.get d <<< k) d)
  | .and d v => .next (c.setFlag (c.get d &&& v) d)
  | .add d v => .next (c.setFlag (c.get d + v) d)
  | .sub d s => .next (c.setFlag (c.get d - c.get s) d)
  | .neg d => .next (c.setFlag (-c.get d) d)
  | .lea d b i => .next (c.set (c.get b + c.get i) d)
  | .lodsd => .next { c with rax := BitVec.ofNat 64 (loadBytes c.mem c.rsi 4), rsi := c.rsi + 4 }
  | .stosd => .next { c with mem := putBytes c.rdi 4 c.rax.toNat c.mem, rdi := c.rdi + 4 }
  | .loop l =>
    if c.rcx - 1 = 0 then .next { c with rcx := c.rcx - 1 } else .jump l { c with rcx := c.rcx - 1 }
  | .jz l => if c.zf then .jump l c else .next c
  | .jnz l => if c.zf then .next c else .jump l c
  | .prefetchnta => .next c
  | .movdqu b i => .next { c with xmm0 := loadBytes c.mem (c.get b + c.get i) 16 }
  | .movntdq b i =>
    if (c.get b + c.get i).toNat % 16 = 0 then
      .next { c with mem := putBytes (c.get b + c.get i) 16 c.xmm0 c.mem }
    else .fault
  | .sfence => .next c
  | .ret => .done c.mem

end Cpu

variable {L : Type} [DecidableEq L] (p : Program L)

/-- The memory when the routine returns, if it does after fewer than so many instructions. -/
def run : ℕ → List (Instr L) → Cpu → Option Mem
  | 0, _, _ => none
  | _ + 1, [], _ => none
  | n + 1, i :: code, c =>
    match c.exec i with
    | .next c => run n code c
    | .jump l c => run n (p.codeAt l) c
    | .done m => some m
    | .fault => none

/-- The routine returns, with this memory. -/
def Leaves (code : List (Instr L)) (c : Cpu) (m : Mem) : Prop := ∃ n, run p n code c = some m

variable {p} {code : List (Instr L)} {i : Instr L} {l : L} {c c' : Cpu} {m : Mem}

/-! ## One instruction -/

theorem leaves_next (h : c.exec i = .next c') : Leaves p (i :: code) c m ↔ Leaves p code c' m := by
  constructor
  · rintro ⟨n, hn⟩
    cases n with
    | zero => cases hn
    | succ n =>
      rw [run, h] at hn
      exact ⟨n, hn⟩
  · rintro ⟨n, hn⟩
    exact ⟨n + 1, by rw [run, h]; exact hn⟩

theorem leaves_jump (h : c.exec i = .jump l c') :
    Leaves p (i :: code) c m ↔ Leaves p (p.codeAt l) c' m := by
  constructor
  · rintro ⟨n, hn⟩
    cases n with
    | zero => cases hn
    | succ n =>
      rw [run, h] at hn
      exact ⟨n, hn⟩
  · rintro ⟨n, hn⟩
    exact ⟨n + 1, by rw [run, h]; exact hn⟩

/-- The routine returns. -/
theorem leaves_ret : Leaves p (.ret :: code) c m ↔ c.mem = m := by
  constructor
  · rintro ⟨n, hn⟩
    cases n with
    | zero => cases hn
    | succ n => exact Option.some.inj hn
  · rintro rfl
    exact ⟨1, rfl⟩

theorem leaves_jz_of_set (h : c.zf = true) :
    Leaves p (.jz l :: code) c m ↔ Leaves p (p.codeAt l) c m :=
  leaves_jump (by rw [Cpu.exec, if_pos h])

theorem leaves_jz_of_clear (h : c.zf = false) :
    Leaves p (.jz l :: code) c m ↔ Leaves p code c m :=
  leaves_next (by rw [Cpu.exec, h]; rfl)

theorem leaves_jnz_of_set (h : c.zf = true) :
    Leaves p (.jnz l :: code) c m ↔ Leaves p code c m :=
  leaves_next (by rw [Cpu.exec, if_pos h])

theorem leaves_jnz_of_clear (h : c.zf = false) :
    Leaves p (.jnz l :: code) c m ↔ Leaves p (p.codeAt l) c m :=
  leaves_jump (by rw [Cpu.exec, h]; rfl)

/-- A block is stored at an address that is aligned. -/
theorem leaves_movntdq {b r : Reg} (h : (c.get b + c.get r).toNat % 16 = 0) :
    Leaves p (.movntdq b r :: code) c m ↔
      Leaves p code { c with mem := putBytes (c.get b + c.get r) 16 c.xmm0 c.mem } m :=
  leaves_next (if_pos h)

/-! ## Loops -/

/-- A word is copied by `lodsd` and `stosd`. -/
theorem leaves_lodsd_stosd : Leaves p (.lodsd :: .stosd :: code) c m ↔ Leaves p code
    { c with
      rax := BitVec.ofNat 64 (loadBytes c.mem c.rsi 4)
      rsi := c.rsi + 4
      rdi := c.rdi + 4
      mem := copied c.rdi c.rsi 4 c.mem } m := by
  have hlt : loadBytes c.mem c.rsi 4 < 2 ^ 64 := (loadBytes_lt c.mem c.rsi 4).trans (by decide)
  rw [leaves_next rfl, leaves_next rfl]
  dsimp only
  rw [BitVec.toNat_ofNat, Nat.mod_eq_of_lt hlt, putBytes_loadBytes]

/-- `loop` counts down, and goes on behind itself at zero. -/
theorem leaves_loop {k : ℕ} (hrcx : c.rcx = BitVec.ofNat 64 (k + 1)) (hlt : k + 1 < 2 ^ 64) :
    Leaves p (.loop l :: code) c m ↔
      Leaves p (if k = 0 then code else p.codeAt l) { c with rcx := BitVec.ofNat 64 k } m := by
  have hsub : c.rcx - 1 = BitVec.ofNat 64 k := by
    rw [hrcx, BitVec.ofNat_add]
    exact add_sub_cancel_right ..
  by_cases hk : k = 0
  · rw [if_pos hk]
    refine leaves_next ?_
    rw [Cpu.exec, hsub, if_pos (by rw [hk]; rfl)]
  · have hne : BitVec.ofNat 64 k ≠ 0 := fun h ↦ by
      have hnat := congrArg BitVec.toNat h
      rw [BitVec.toNat_ofNat, Nat.mod_eq_of_lt (by omega)] at hnat
      exact hk hnat
    rw [if_neg hk]
    refine leaves_jump ?_
    rw [Cpu.exec, hsub, if_neg hne]

/-- **A loop on words** copies as many of them as `rcx` says. -/
theorem leaves_wordLoop (hl : p.codeAt l = .lodsd :: .stosd :: .loop l :: code) {k : ℕ}
    (hlt : 4 * (k + 1) < 2 ^ 64) (hrcx : c.rcx = BitVec.ofNat 64 (k + 1))
    (hapart : Apart c.rdi c.rsi (4 * (k + 1))) :
    ∃ rax, ∀ m, Leaves p (p.codeAt l) c m ↔ Leaves p code
      { c with
        rax := rax
        rcx := 0
        rsi := c.rsi + BitVec.ofNat 64 (4 * (k + 1))
        rdi := c.rdi + BitVec.ofNat 64 (4 * (k + 1))
        mem := copied c.rdi c.rsi (4 * (k + 1)) c.mem } m := by
  induction k generalizing c with
  | zero =>
    refine ⟨BitVec.ofNat 64 (loadBytes c.mem c.rsi 4), fun m ↦ ?_⟩
    rw [hl, leaves_lodsd_stosd, leaves_loop (k := 0) ?_ (by decide), if_pos rfl]
    · rfl
    · exact hrcx
  | succ k ih =>
    have hsplit : 4 * (k + 1 + 1) = 4 + 4 * (k + 1) := by ring
    rw [hsplit] at hapart hlt ⊢
    have hstep := hapart.step hlt
    obtain ⟨rax, hrest⟩ := ih (c :=
      { c with
        rax := BitVec.ofNat 64 (loadBytes c.mem c.rsi 4)
        rcx := BitVec.ofNat 64 (k + 1)
        rsi := c.rsi + 4
        rdi := c.rdi + 4
        mem := copied c.rdi c.rsi 4 c.mem }) (by omega) rfl hstep
    refine ⟨rax, fun m ↦ ?_⟩
    rw [hl, leaves_lodsd_stosd, leaves_loop (k := k + 1) ?_ (by omega),
      if_neg (Nat.succ_ne_zero k), hrest m]
    · dsimp only
      rw [BitVec.ofNat_add 4, ← add_assoc, ← add_assoc, ← copied_copied hapart hlt]
      rfl
    · exact hrcx

/-- A block is copied. -/
theorem leaves_block {d s : BitVec 64} (hrsi : c.rsi + c.rcx = s) (hrdi : c.rdi + c.rcx = d)
    (haligned : d.toNat % 16 = 0) :
    Leaves p (.movdqu .rsi .rcx :: .movntdq .rdi .rcx :: .add .rcx 16 :: code) c m ↔
      Leaves p code
        { c with
          rcx := c.rcx + 16
          zf := c.rcx + 16 == 0
          xmm0 := loadBytes c.mem s 16
          mem := copied d s 16 c.mem } m := by
  subst hrsi hrdi
  rw [leaves_next rfl, leaves_movntdq ?_, leaves_next rfl, ← putBytes_loadBytes]
  · rfl
  · exact haligned

/-- **A loop on blocks** copies as many of them as there are from `rcx` up to zero. -/
theorem leaves_blockLoop
    (hl : ∀ c m, Leaves p (p.codeAt l) c m ↔
      Leaves p (.movdqu .rsi .rcx :: .movntdq .rdi .rcx :: .add .rcx 16 :: .jnz l :: code) c m)
    {j : ℕ} (hlt : 16 * (j + 1) < 2 ^ 64) {d s : BitVec 64}
    (hrsi : c.rsi + c.rcx = s) (hrdi : c.rdi + c.rcx = d)
    (hrcx : c.rcx = -BitVec.ofNat 64 (16 * (j + 1))) (haligned : d.toNat % 16 = 0)
    (hapart : Apart d s (16 * (j + 1))) :
    ∃ xmm0, ∀ m, Leaves p (p.codeAt l) c m ↔ Leaves p code
      { c with
        rcx := 0
        zf := true
        xmm0 := xmm0
        mem := copied d s (16 * (j + 1)) c.mem } m := by
  have hnext : ∀ j, -BitVec.ofNat 64 (16 * (j + 1)) + 16 = -BitVec.ofNat 64 (16 * j) := fun j ↦ by
    rw [Nat.mul_add, BitVec.ofNat_add, neg_add]
    exact neg_add_cancel_right ..
  induction j generalizing c d s with
  | zero =>
    refine ⟨loadBytes c.mem s 16, fun m ↦ ?_⟩
    rw [hl, leaves_block hrsi hrdi haligned, leaves_jnz_of_set]
    · rw [hrcx, hnext]
      rfl
    · rw [hrcx, hnext]
      rfl
  | succ j ih =>
    have hsplit : 16 * (j + 1 + 1) = 16 + 16 * (j + 1) := by ring
    have hzero : c.rcx + 16 ≠ 0 := fun h ↦ by
      rw [hrcx, hnext, neg_eq_zero] at h
      have hnat := congrArg BitVec.toNat h
      rw [BitVec.toNat_ofNat, Nat.mod_eq_of_lt (by omega)] at hnat
      exact absurd hnat (Nat.mul_ne_zero (by decide) (Nat.succ_ne_zero j))
    have hsixteen : (16 : BitVec 64).toNat = 16 := rfl
    rw [hsplit] at hapart hlt ⊢
    have hstep := hapart.step hlt
    obtain ⟨xmm0, hrest⟩ := ih (c :=
      { c with
        rcx := c.rcx + 16
        zf := c.rcx + 16 == 0
        xmm0 := loadBytes c.mem s 16
        mem := copied d s 16 c.mem }) (by omega) (d := d + 16) (s := s + 16)
      (by rw [← hrsi, ← add_assoc]) (by rw [← hrdi, ← add_assoc]) (by rw [hrcx, hnext])
      (by rw [BitVec.toNat_add]; omega) hstep
    refine ⟨xmm0, fun m ↦ ?_⟩
    rw [hl, leaves_block hrsi hrdi haligned,
      leaves_jnz_of_clear (beq_eq_false_iff_ne.mpr hzero), hrest m,
      ← copied_copied hapart hlt]
    rfl

end Assembly
