import Borrrdex.Basic
import Borrrdex.Lib.Assembly

/-!
# Copying a surface

`memcpy_optimized` copies words until the destination is aligned, blocks of four words, and then the
words that are left.  The last loop is skipped if the zero flag is set, and what has set it is the
instruction before the jump to the `mov` in front of it: behind the blocks that is the test of the
number of words that are left, but if there are no blocks it is the test for that, and the words are
not copied.

So the copy is right if there is a block behind the first words (`copies_iff`).
-/

set_option autoImplicit false

namespace Borrrdex

namespace Gfx

open FlatMemory Assembly

/-- The labels of `memcpy_optimized`. -/
inductive MemcpyLabel
  | memcpyOptimized
  | pad1
  | smlcpy
  | smlcpyloop
  | pad2
  | pad2l
  | ret
  | smlcpyua
  | smlcpyloopua
  | pad2u
  | pad2lua
  | retua
deriving DecidableEq

/-- `memcpy_optimized`, with the destination in `rdi`, the source in `rsi` and the number of words
in `rdx`. -/
def memcpyOptimized : Program MemcpyLabel :=
  [ (.memcpyOptimized,
      [ .mov .rcx .rdx, .shr .rcx 2, .jz .pad2, .mov .rcx .rdi, .and .rcx 0xF, .jz .smlcpy,
        .shr .rcx 2, .neg .rcx, .add .rcx 4, .sub .rdx .rcx ]),
    (.pad1, [.lodsd, .stosd, .loop .pad1]),
    (.smlcpy,
      [ .mov .rax .rsi, .and .rax 0xF, .jnz .smlcpyua, .mov .rcx .rdx, .and .rcx (~~~3#64),
        .jz .pad2, .shl .rcx 2, .lea .rsi .rsi .rcx, .lea .rdi .rdi .rcx, .neg .rcx ]),
    (.smlcpyloop,
      [ .prefetchnta, .movdqu .rsi .rcx, .movntdq .rdi .rcx, .add .rcx 16, .jnz .smlcpyloop,
        .and .rdx 3 ]),
    (.pad2, [.mov .rcx .rdx, .jz .ret]),
    (.pad2l, [.lodsd, .stosd, .loop .pad2l]),
    (.ret, [.sfence, .ret]),
    (.smlcpyua,
      [ .prefetchnta, .mov .rcx .rdx, .and .rcx (~~~3#64), .jz .pad2u, .shl .rcx 2,
        .lea .rsi .rsi .rcx, .lea .rdi .rdi .rcx, .neg .rcx ]),
    (.smlcpyloopua,
      [ .movdqu .rsi .rcx, .movntdq .rdi .rcx, .add .rcx 16, .jnz .smlcpyloopua, .and .rdx 3 ]),
    (.pad2u, [.mov .rcx .rdx, .jz .retua]),
    (.pad2lua, [.lodsd, .stosd, .loop .pad2lua]),
    (.retua, [.sfence, .ret]) ]

/-- It returns, and has copied the words and written nothing else. -/
def Copies (c : Cpu) : Prop :=
  Leaves memcpyOptimized (memcpyOptimized.codeAt .memcpyOptimized) c
    (copied c.rdi c.rsi (4 * c.rdx.toNat) c.mem)

/-! ## Arithmetic -/

theorem toNat_and_three (v : U64) : (v &&& 3).toNat = v.toNat % 4 := by
  rw [BitVec.toNat_and]
  exact Nat.and_two_pow_sub_one_eq_mod v.toNat 2

theorem toNat_and_fifteen (v : U64) : (v &&& 0xF).toNat = v.toNat % 16 := by
  rw [BitVec.toNat_and]
  exact Nat.and_two_pow_sub_one_eq_mod v.toNat 4

theorem and_not_three (v : U64) : v &&& ~~~3#64 = BitVec.ofNat 64 (4 * (v.toNat / 4)) := by
  have hshift : v &&& ~~~3#64 = v >>> 2 <<< 2 := by
    ext i hi
    have hthree : (3#64).getLsbD i = decide (i < 2) := by
      rw [BitVec.getLsbD_ofNat, Nat.testBit_two_pow_sub_one 2 i, decide_eq_true hi, Bool.true_and]
    rw [BitVec.getElem_and, BitVec.getElem_not, ← BitVec.getLsbD_eq_getElem,
      ← BitVec.getLsbD_eq_getElem, hthree, BitVec.getElem_shiftLeft]
    by_cases hlt : i < 2
    · simp [hlt]
    · simp only [hlt, decide_false, Bool.not_false, Bool.and_true, BitVec.getElem_ushiftRight]
      rw [Nat.add_sub_cancel' (not_lt.mp hlt)]
      rfl
  apply BitVec.eq_of_toNat_eq
  have hlt := v.isLt
  rw [hshift, BitVec.toNat_shiftLeft, BitVec.toNat_ushiftRight, BitVec.toNat_ofNat,
    Nat.shiftRight_eq_div_pow, Nat.shiftLeft_eq]
  omega

theorem ofNat_eq_zero_iff {k : ℕ} (hlt : k < 2 ^ 64) : BitVec.ofNat 64 k = 0 ↔ k = 0 := by
  refine ⟨fun h ↦ ?_, fun h ↦ by rw [h]; rfl⟩
  have hnat := congrArg BitVec.toNat h
  rw [BitVec.toNat_ofNat, Nat.mod_eq_of_lt hlt] at hnat
  exact hnat

/-! ## The words that are left -/

/-- The labels of the end, of which there are two copies. -/
structure IsTail (pad padl stop : MemcpyLabel) : Prop where
  pad : memcpyOptimized.codeAt pad = .mov .rcx .rdx :: .jz stop :: memcpyOptimized.codeAt padl
  padl : memcpyOptimized.codeAt padl =
    .lodsd :: .stosd :: .loop padl :: memcpyOptimized.codeAt stop
  stop : ∃ code, memcpyOptimized.codeAt stop = .sfence :: .ret :: code

theorem isTail_pad2 : IsTail .pad2 .pad2l .ret := ⟨rfl, rfl, ⟨_, rfl⟩⟩

theorem isTail_pad2u : IsTail .pad2u .pad2lua .retua := ⟨rfl, rfl, ⟨_, rfl⟩⟩

variable {pad padl stop l : MemcpyLabel} {c : Cpu} {m : Mem}

theorem IsTail.leaves_stop (h : IsTail pad padl stop) :
    Leaves memcpyOptimized (memcpyOptimized.codeAt stop) c m ↔ c.mem = m := by
  obtain ⟨code, hcode⟩ := h.stop
  rw [hcode, leaves_next rfl, leaves_ret]

/-- With the flag set nothing more is copied. -/
theorem IsTail.leaves_of_set (h : IsTail pad padl stop) (hzf : c.zf = true) :
    Leaves memcpyOptimized (memcpyOptimized.codeAt pad) c m ↔ c.mem = m := by
  rw [h.pad, leaves_next rfl, leaves_jz_of_set ?_, h.leaves_stop]
  · rfl
  · exact hzf

/-- With the flag of a test of what is left, it is copied. -/
theorem IsTail.leaves_of_test (h : IsTail pad padl stop) (hzf : c.zf = (c.rdx == 0))
    (hlt : 4 * c.rdx.toNat < 2 ^ 64) (hapart : Apart c.rdi c.rsi (4 * c.rdx.toNat)) :
    Leaves memcpyOptimized (memcpyOptimized.codeAt pad) c m ↔
      copied c.rdi c.rsi (4 * c.rdx.toNat) c.mem = m := by
  by_cases hzero : c.rdx = 0
  · rw [h.leaves_of_set (hzf.trans (beq_iff_eq.mpr hzero)), hzero]
    change c.mem = m ↔ copied c.rdi c.rsi 0 c.mem = m
    rw [copied_zero]
  · have hrdx : c.rdx.toNat ≠ 0 := fun hnat ↦ hzero (BitVec.eq_of_toNat_eq hnat)
    obtain ⟨k, hk⟩ := Nat.exists_eq_succ_of_ne_zero hrdx
    rw [hk] at hlt hapart ⊢
    obtain ⟨rax, hloop⟩ := leaves_wordLoop (c := c.set c.rdx .rcx) h.padl hlt
      (by rw [← Nat.succ_eq_add_one, ← hk, BitVec.ofNat_toNat, BitVec.setWidth_eq]; rfl) hapart
    rw [h.pad, leaves_next rfl, leaves_jz_of_clear ?_, Cpu.get, hloop, h.leaves_stop]
    · rfl
    · exact hzf.trans (beq_eq_false_iff_ne.mpr hzero)

/-! ## The blocks -/

/-- What is copied when the destination is aligned: everything, or nothing if there is no block. -/
theorem IsTail.leaves_blocks (h : IsTail pad padl stop)
    (hloop : ∀ c m, Leaves memcpyOptimized (memcpyOptimized.codeAt l) c m ↔
      Leaves memcpyOptimized (.movdqu .rsi .rcx :: .movntdq .rdi .rcx :: .add .rcx 16 :: .jnz l ::
        .and .rdx 3 :: memcpyOptimized.codeAt pad) c m)
    (haligned : c.rdi.toNat % 16 = 0) (hlt : 4 * c.rdx.toNat < 2 ^ 64)
    (hapart : Apart c.rdi c.rsi (4 * c.rdx.toNat)) :
    Leaves memcpyOptimized (.mov .rcx .rdx :: .and .rcx (~~~3#64) :: .jz pad :: .shl .rcx 2 ::
        .lea .rsi .rsi .rcx :: .lea .rdi .rdi .rcx :: .neg .rcx :: memcpyOptimized.codeAt l) c m ↔
      (if c.rdx.toNat < 4 then c.mem else copied c.rdi c.rsi (4 * c.rdx.toNat) c.mem) = m := by
  have hand := and_not_three c.rdx
  have hzero := ofNat_eq_zero_iff (k := 4 * (c.rdx.toNat / 4)) (by omega)
  rw [← hand] at hzero
  rw [leaves_next rfl, leaves_next rfl]
  by_cases hsmall : c.rdx.toNat < 4
  · have hset : (c.rdx &&& ~~~3#64 == 0) = true := beq_iff_eq.mpr (hzero.mpr (by omega))
    rw [if_pos hsmall, leaves_jz_of_set hset, h.leaves_of_set hset]
    rfl
  · have hclear : (c.rdx &&& ~~~3#64 == 0) = false :=
      beq_eq_false_iff_ne.mpr (mt hzero.mp (by omega))
    obtain ⟨j, hj⟩ : ∃ j, c.rdx.toNat / 4 = j + 1 := Nat.exists_eq_succ_of_ne_zero (by omega)
    have hsplit : 4 * c.rdx.toNat = 16 * (j + 1) + 4 * (c.rdx.toNat % 4) := by omega
    have hblocks : (c.rdx &&& ~~~3#64) <<< 2 = BitVec.ofNat 64 (16 * (j + 1)) := by
      apply BitVec.eq_of_toNat_eq
      rw [hand, hj, BitVec.toNat_shiftLeft, BitVec.toNat_ofNat, BitVec.toNat_ofNat,
        Nat.shiftLeft_eq]
      omega
    rw [hsplit] at hlt hapart ⊢
    have hrest := hapart.step hlt
    have hfirst := hapart.mono (Nat.le_add_right (16 * (j + 1)) _)
    obtain ⟨xmm0, hcopy⟩ := leaves_blockLoop hloop (c :=
      { c with
        rcx := -BitVec.ofNat 64 (16 * (j + 1))
        rsi := c.rsi + BitVec.ofNat 64 (16 * (j + 1))
        rdi := c.rdi + BitVec.ofNat 64 (16 * (j + 1))
        zf := -BitVec.ofNat 64 (16 * (j + 1)) == 0 }) (j := j) (by omega)
      (add_neg_cancel_right c.rsi _) (add_neg_cancel_right c.rdi _) rfl haligned hfirst
    rw [if_neg hsmall, leaves_jz_of_clear hclear, leaves_next rfl, leaves_next rfl, leaves_next rfl,
      leaves_next rfl]
    dsimp only [Cpu.get, Cpu.set, Cpu.setFlag]
    rw [hblocks, hcopy, leaves_next rfl]
    dsimp only [Cpu.get, Cpu.set, Cpu.setFlag]
    rw [h.leaves_of_test rfl]
    · dsimp only
      rw [toNat_and_three, copied_copied hapart hlt]
    · dsimp only
      rw [toNat_and_three]
      omega
    · dsimp only
      rw [toNat_and_three]
      exact hrest

/-- What is copied from `.smlcpy` on, through either of the loops. -/
theorem leaves_smlcpy (haligned : c.rdi.toNat % 16 = 0) (hlt : 4 * c.rdx.toNat < 2 ^ 64)
    (hapart : Apart c.rdi c.rsi (4 * c.rdx.toNat)) :
    Leaves memcpyOptimized (memcpyOptimized.codeAt .smlcpy) c m ↔
      (if c.rdx.toNat < 4 then c.mem else copied c.rdi c.rsi (4 * c.rdx.toNat) c.mem) = m := by
  have hcode : memcpyOptimized.codeAt .smlcpy = .mov .rax .rsi :: .and .rax 0xF ::
      .jnz .smlcpyua :: .mov .rcx .rdx :: .and .rcx (~~~3#64) :: .jz .pad2 :: .shl .rcx 2 ::
      .lea .rsi .rsi .rcx :: .lea .rdi .rdi .rcx :: .neg .rcx ::
      memcpyOptimized.codeAt .smlcpyloop := rfl
  have hunaligned : memcpyOptimized.codeAt .smlcpyua = .prefetchnta :: .mov .rcx .rdx ::
      .and .rcx (~~~3#64) :: .jz .pad2u :: .shl .rcx 2 :: .lea .rsi .rsi .rcx ::
      .lea .rdi .rdi .rcx :: .neg .rcx :: memcpyOptimized.codeAt .smlcpyloopua := rfl
  rw [hcode, leaves_next rfl, leaves_next rfl]
  cases hzf : c.rsi &&& 0xF == 0 with
  | true =>
    rw [leaves_jnz_of_set hzf]
    exact isTail_pad2.leaves_blocks (fun c m ↦ leaves_next (i := .prefetchnta) rfl) haligned hlt
      hapart
  | false =>
    rw [leaves_jnz_of_clear hzf, hunaligned, leaves_next rfl]
    exact isTail_pad2u.leaves_blocks (fun _ _ ↦ Iff.rfl) haligned hlt hapart

/-! ## The whole routine -/

/-- The words up to an address that is a multiple of 16. -/
def padWords (dst : U64) : ℕ := (4 - dst.toNat % 16 / 4) % 4

/-- The words that are copied. -/
def wordsCopied (dst : U64) (n : ℕ) : ℕ :=
  if n < 4 then 0 else if n < padWords dst + 4 then padWords dst else n

theorem leaves_iff (hdst : c.rdi.toNat % 4 = 0) (hlt : 4 * c.rdx.toNat < 2 ^ 64)
    (hapart : Apart c.rdi c.rsi (4 * c.rdx.toNat)) :
    Leaves memcpyOptimized (memcpyOptimized.codeAt .memcpyOptimized) c m ↔
      copied c.rdi c.rsi (4 * wordsCopied c.rdi c.rdx.toNat) c.mem = m := by
  have hcode : memcpyOptimized.codeAt .memcpyOptimized = .mov .rcx .rdx :: .shr .rcx 2 ::
      .jz .pad2 :: .mov .rcx .rdi :: .and .rcx 0xF :: .jz .smlcpy :: .shr .rcx 2 :: .neg .rcx ::
      .add .rcx 4 :: .sub .rdx .rcx :: memcpyOptimized.codeAt .pad1 := rfl
  have hzero : (0 : U64).toNat = 0 := rfl
  have hshr : c.rdx >>> 2 = 0 ↔ c.rdx.toNat < 4 := by
    rw [BitVec.toNat_eq, BitVec.toNat_ushiftRight, Nat.shiftRight_eq_div_pow, hzero]
    omega
  have hand : c.rdi &&& 0xF = 0 ↔ c.rdi.toNat % 16 = 0 := by
    rw [BitVec.toNat_eq, toNat_and_fifteen, hzero]
  rw [hcode, leaves_next rfl, leaves_next rfl, wordsCopied]
  by_cases hsmall : c.rdx.toNat < 4
  · have hset : (c.rdx >>> 2 == 0) = true := beq_iff_eq.mpr (hshr.mpr hsmall)
    rw [leaves_jz_of_set hset, isTail_pad2.leaves_of_set hset, if_pos hsmall, Nat.mul_zero,
      copied_zero]
    rfl
  have hclear : (c.rdx >>> 2 == 0) = false := beq_eq_false_iff_ne.mpr (mt hshr.mp hsmall)
  rw [leaves_jz_of_clear hclear, leaves_next rfl, leaves_next rfl, if_neg hsmall]
  by_cases haligned : c.rdi.toNat % 16 = 0
  · have hset : (c.rdi &&& 0xF == 0) = true := beq_iff_eq.mpr (hand.mpr haligned)
    have hpad : padWords c.rdi = 0 := by
      rw [padWords, haligned]
    rw [leaves_jz_of_set hset, leaves_smlcpy ?_ ?_ ?_, hpad, Nat.zero_add, if_neg hsmall]
    · exact iff_of_eq (congrArg (· = m) (if_neg hsmall))
    · exact haligned
    · exact hlt
    · exact hapart
  -- the words in front of the aligned address are copied one by one
  have hclear' : (c.rdi &&& 0xF == 0) = false := beq_eq_false_iff_ne.mpr (mt hand.mp haligned)
  obtain ⟨k, hk⟩ : ∃ k, padWords c.rdi = k + 1 := by
    refine Nat.exists_eq_succ_of_ne_zero ?_
    rw [padWords]
    omega
  have hpad : 4 - c.rdi.toNat % 16 / 4 = k + 1 := by
    rw [← hk, padWords]
    omega
  have hrcx : -((c.rdi &&& 0xF) >>> 2) + 4 = BitVec.ofNat 64 (k + 1) := by
    apply BitVec.eq_of_toNat_eq
    rw [BitVec.toNat_add, BitVec.toNat_neg, BitVec.toNat_ushiftRight, toNat_and_fifteen,
      Nat.shiftRight_eq_div_pow, BitVec.toNat_ofNat, show (4 : U64).toNat = 4 from rfl]
    omega
  have hrdx : (c.rdx - BitVec.ofNat 64 (k + 1)).toNat = c.rdx.toNat - (k + 1) := by
    rw [BitVec.toNat_sub, BitVec.toNat_ofNat]
    omega
  have hsplit : 4 * c.rdx.toNat = 4 * (k + 1) + 4 * (c.rdx.toNat - (k + 1)) := by omega
  rw [leaves_jz_of_clear hclear', leaves_next rfl, leaves_next rfl, leaves_next rfl,
    leaves_next rfl, hk]
  dsimp only [Cpu.get, Cpu.set, Cpu.setFlag]
  rw [hrcx]
  rw [hsplit] at hlt hapart
  have hpad : memcpyOptimized.codeAt .pad1 =
      .lodsd :: .stosd :: .loop .pad1 :: memcpyOptimized.codeAt .smlcpy := rfl
  obtain ⟨rax, hloop⟩ := leaves_wordLoop (c :=
    { c with
      rcx := BitVec.ofNat 64 (k + 1)
      rdx := c.rdx - BitVec.ofNat 64 (k + 1)
      zf := c.rdx - BitVec.ofNat 64 (k + 1) == 0 })
    hpad (k := k) (by omega) rfl (hapart.mono (Nat.le_add_right ..))
  rw [hloop, leaves_smlcpy ?_ ?_ ?_]
  · dsimp only
    rw [hrdx]
    by_cases hrest : c.rdx.toNat < k + 1 + 4
    · rw [if_pos hrest, if_pos (by omega)]
    · rw [if_neg hrest, if_neg (by omega), copied_copied hapart hlt, ← hsplit]
  · dsimp only
    rw [BitVec.toNat_add, BitVec.toNat_ofNat]
    omega
  · dsimp only
    rw [hrdx]
    omega
  · dsimp only
    rw [hrdx]
    exact hapart.step hlt

/-- **When the copy is right**: if there is a block behind the words in front of the first aligned
address, or the words that are left out are there already. -/
theorem copies_iff (hdst : c.rdi.toNat % 4 = 0) (hapart : Apart c.rdi c.rsi (4 * c.rdx.toNat)) :
    Copies c ↔ c.rdx = 0 ∨ padWords c.rdi + 4 ≤ c.rdx.toNat ∨
      ∀ i, 4 * (if c.rdx.toNat < 4 then 0 else padWords c.rdi) ≤ i → i < 4 * c.rdx.toNat →
        c.mem (c.rdi + BitVec.ofNat 64 i) = c.mem (c.rsi + BitVec.ofNat 64 i) := by
  have hlt : 4 * c.rdx.toNat < 2 ^ 64 := by
    rcases Nat.eq_zero_or_pos (4 * c.rdx.toNat) with hzero | hpos
    · omega
    · have hle := hapart 0 hpos
      have hbound := (c.rsi + BitVec.ofNat 64 0 - c.rdi).isLt
      omega
  have hpad : padWords c.rdi < 4 := Nat.mod_lt _ (by decide)
  by_cases hblock : padWords c.rdi + 4 ≤ c.rdx.toNat
  · have hall : wordsCopied c.rdi c.rdx.toNat = c.rdx.toNat := by
      rw [wordsCopied, if_neg (by omega), if_neg (by omega)]
    rw [Copies, leaves_iff hdst hlt hapart, hall]
    exact iff_of_true rfl (.inr (.inl hblock))
  · have hleft : wordsCopied c.rdi c.rdx.toNat =
        if c.rdx.toNat < 4 then 0 else padWords c.rdi := by
      rw [wordsCopied, if_pos (show c.rdx.toNat < padWords c.rdi + 4 by omega)]
    have hle : 4 * (if c.rdx.toNat < 4 then 0 else padWords c.rdi) ≤ 4 * c.rdx.toNat := by
      split <;> omega
    rw [Copies, leaves_iff hdst hlt hapart, hleft, copied_eq_copied_iff hle hlt]
    refine ⟨fun h ↦ .inr (.inr h), ?_⟩
    rintro (hzero | hpos | h)
    · intro i _ hi
      rw [hzero] at hi
      exact absurd hi (Nat.not_lt_zero i)
    · exact absurd hpos hblock
    · exact h

/-! ## One word -/

/-- A word at `0x2000` is to be copied to `0x1000`. -/
def oneWord : Cpu where
  rax := 0
  rcx := 0
  rdx := 1
  rsi := 0x2000
  rdi := 0x1000
  zf := false
  xmm0 := 0
  mem a := if a = 0x2000 then 1 else 0

theorem apart_oneWord : Apart oneWord.rdi oneWord.rsi (4 * oneWord.rdx.toNat) := by
  intro j hj
  change j < 4 at hj
  interval_cases j <;> decide

/-- **A single word is not copied.** -/
theorem not_copies_one :
    (oneWord.rdi.toNat % 4 = 0 ∧ Apart oneWord.rdi oneWord.rsi (4 * oneWord.rdx.toNat)) ∧
      ¬ Copies oneWord := by
  refine ⟨⟨by decide, apart_oneWord⟩, fun h ↦ ?_⟩
  rw [Copies, leaves_iff (by decide) (by decide) apart_oneWord] at h
  have hfirst := congrFun h 0x1000
  exact absurd hfirst (by decide)

/-- Four words are, to an aligned address. -/
theorem copies_iff_four : Copies { oneWord with rdx := 4 } :=
  (copies_iff (c := { oneWord with rdx := 4 }) (by decide) (by
    intro j hj
    change j < 16 at hj
    interval_cases j <;> decide)).mpr (.inr (.inl (by decide)))

end Gfx

end Borrrdex
