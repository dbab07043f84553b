import Borrrdex.Fs.Directory

/-!
# Looking up a name in a directory

`find_dir` goes through the records until one in use has the name, or the directory ends, and tests
the record it stopped at once more.  `lookupName` is what it should find.

It does, except that at the end of the last block it looks into one more if `i_blocks` leads there,
which it does in every directory with an indirect block: the total offset is then equal to the size,
and only a greater one ends the loop.  `findsEntry_iff` says for which names that matters.
-/

set_option autoImplicit false

namespace Borrrdex

open Splice FlatMemory

variable {σ τ : Type}

/-! ## Comparing names -/

namespace DirScan

variable {d : DirScan τ} {blocks : U32 → Option (List Byte)} {I : τ → Prop} {name : U64}
  {w : List Byte}

/-- **A record has a name**: as many characters, and these. -/
theorem nameMatches_iff (hname : CString d.frame.mem name w) (hlen : w.length ≤ 255)
    (byte : ℕ → Byte) (o : ℕ) : (d.nameMatches name byte o).1 = true ↔
      direntNameLen byte o = w.length ∧ ∀ i (h : i < w.length), direntName byte o i = w[i] := by
  rw [nameMatches, strnlen_eq hname hlen]
  by_cases heq : w.length = direntNameLen byte o
  swap
  · rw [if_neg heq]
    exact iff_of_false Bool.false_ne_true fun h ↦ heq h.1.symm
  have hchars : (∀ k < w.length, d.frame.mem (name + BitVec.ofNat 64 (0 + k)) =
      direntName byte o (0 + k)) ↔ ∀ i (h : i < w.length), direntName byte o i = w[i] := by
    refine forall_congr' fun k ↦ forall_congr' fun hk ↦ ?_
    rw [Nat.zero_add, hname.char k hk]
    exact eq_comm
  have hne : ∀ k < w.length, d.frame.mem (name + BitVec.ofNat 64 (0 + k)) ≠ 0 := fun k hk ↦ by
    rw [Nat.zero_add, hname.char k hk]
    exact hname.ne_zero _ (List.getElem_mem hk)
  rw [if_pos heq, ← heq]
  dsimp only
  rw [decide_eq_true_eq, strncmp, strncmpFrom_eq_zero_iff hne, hchars]
  exact ⟨fun h ↦ ⟨rfl, h⟩, fun h ↦ h.2⟩

/-- A record in use has the name that it has. -/
theorem nameMatches_at (hname : CString d.frame.mem name w) (hlen : w.length ≤ 255) {e : DirEntry}
    {byte : ℕ → Byte} {o : ℕ} (hat : e.At byte o) (hlive : e.inode ≠ 0) :
    (d.nameMatches name byte o).1 = true ↔ e.name = w := by
  rw [nameMatches_iff hname hlen, hat.nameLen_eq hlive]
  constructor
  · rintro ⟨heq, hchars⟩
    refine List.ext_getElem heq fun i hi hi' ↦ ?_
    rw [← hat.name_eq hlive i hi, hchars i hi']
  · rintro rfl
    exact ⟨rfl, fun i hi ↦ hat.name_eq hlive i hi⟩

/-! ## The loop -/

/-- The test in the loop: the record is in use and has the name. -/
def stopsAt (d : DirScan τ) (name : U64) (byte : ℕ → Byte) (o : ℕ) : Bool :=
  decide (direntInode byte o > 0) && (d.nameMatches name byte o).1

/-- **An iteration**: the loop is left, or goes on behind the record. -/
theorem findDirStep_fst (c : DirCursor) (t : τ) : (d.findDirStep name c t).1 =
    if c.currentBlock < d.blocks ∧ ¬ direntRecLen (d.frame.byte c.buffer) c.dirent < 8 ∧
      ¬ d.stopsAt name (d.frame.byte c.buffer) c.dirent = true
    then d.findDirAdvance (direntRecLen (d.frame.byte c.buffer) c.dirent) c t
    else .leave c t := by
  rw [findDirStep, stopsAt]
  dsimp only
  by_cases hblock : c.currentBlock < d.blocks
  swap
  · rw [if_pos hblock, if_neg (fun h ↦ hblock h.1)]
  rw [if_neg (not_not.mpr hblock)]
  by_cases hshort : direntRecLen (d.frame.byte c.buffer) c.dirent < 8
  · rw [if_pos hshort, if_neg (fun h ↦ h.2.1 hshort)]
  rw [if_neg hshort]
  by_cases hinode : direntInode (d.frame.byte c.buffer) c.dirent > 0
  · rw [if_pos hinode, decide_eq_true hinode, Bool.true_and]
    by_cases hfound : (d.nameMatches name (d.frame.byte c.buffer) c.dirent).1 = true
    · rw [if_pos hfound, if_neg (fun h ↦ h.2.2 hfound)]
    · rw [if_neg hfound, if_pos ⟨hblock, hshort, hfound⟩]
  · rw [if_neg hinode, decide_eq_false hinode, Bool.false_and, if_neg Bool.false_ne_true,
      if_pos ⟨hblock, hshort, Bool.false_ne_true⟩]

/-- **Going on behind a record**: in the block, or in the next one. -/
theorem findDirAdvance_next {recLen : U32} {c c' : DirCursor} {t t' : τ}
    (h : d.findDirAdvance recLen c t = .next c' t') : ¬ c.totalOffset + recLen > d.iSize ∧
      ((¬ c.blockOffset + recLen ≥ d.blockSize ∧ c' = ⟨c.currentBlock, c.blockOffset + recLen,
          c.totalOffset + recLen, (c.blockOffset + recLen).toNat, c.buffer⟩ ∧ t' = t) ∨
        (c.blockOffset + recLen ≥ d.blockSize ∧ c.currentBlock + 1 < d.blocks ∧
          ∃ buffer, d.load (c.currentBlock + 1) c.buffer t = (some buffer, t') ∧
            c' = ⟨c.currentBlock + 1, 0, c.totalOffset + recLen, 0, buffer⟩)) := by
  rw [findDirAdvance] at h
  dsimp only at h
  split at h
  · cases h
  next htotal =>
  refine ⟨htotal, ?_⟩
  split at h
  · next hend =>
    split at h
    · cases h
    next hblock =>
    split at h
    · cases h
    · next buffer t₁ hload =>
      cases h
      exact .inr ⟨hend, BitVec.not_le.mp hblock, buffer, hload, rfl⟩
  · next hstay =>
    cases h
    exact .inl ⟨hstay, rfl, rfl⟩

theorem findDirLoop_next {fuel : ℕ} {c c' : DirCursor} {t t' t'' : τ} {r : Option DirCursor}
    {reads : List ℕ} (hstep : (d.findDirStep name c t).1 = .next c' t')
    (hloop : d.findDirLoop name fuel c' t' = some (r, t'', reads)) :
    d.findDirLoop name (fuel + 1) c t =
      some (r, t'', (d.findDirStep name c t).2 ++ reads) := by
  rw [findDirLoop, show d.findDirStep name c t = (.next c' t', (d.findDirStep name c t).2) from
    Prod.ext hstep rfl]
  dsimp only
  rw [hloop]
  rfl

/-- More iterations than are made change nothing. -/
theorem findDirLoop_mono {fuel : ℕ} {c : DirCursor} {t : τ} {r : Option DirCursor × τ × List ℕ}
    (h : d.findDirLoop name fuel c t = some r) (k : ℕ) :
    d.findDirLoop name (fuel + k) c t = some r := by
  induction fuel generalizing c t r with
  | zero => cases h
  | succ fuel ih =>
    rw [Nat.succ_add_eq_add_succ, Nat.add_succ, findDirLoop]
    rw [findDirLoop] at h
    cases hstep : d.findDirStep name c t with
    | mk step reads =>
      rw [hstep] at h
      cases step with
      | next c' t' =>
        dsimp only at h ⊢
        rw [Option.map_eq_some_iff] at h
        obtain ⟨r', hrest, rfl⟩ := h
        rw [ih hrest]
        rfl
      | leave c' t' => exact h
      | null t' => exact h

/-- **However many iterations are allowed, the result is the same.** -/
theorem findDirLoop_unique {fuel fuel' : ℕ} {c : DirCursor} {t : τ}
    {r r' : Option DirCursor × τ × List ℕ} (h : d.findDirLoop name fuel c t = some r)
    (h' : d.findDirLoop name fuel' c t = some r') : r = r' := by
  rcases Nat.le_total fuel fuel' with hle | hle
  · obtain ⟨k, rfl⟩ := Nat.exists_eq_add_of_le hle
    exact Option.some.inj ((findDirLoop_mono h k).symm.trans h')
  · obtain ⟨k, rfl⟩ := Nat.exists_eq_add_of_le hle
    exact Option.some.inj (h.symm.trans (findDirLoop_mono h' k))

/-- A cursor in the block: the pointer is at the offset, and the offset is inside. -/
structure Placed (d : DirScan τ) (c : DirCursor) : Prop where
  dirent_eq : c.dirent = c.blockOffset.toNat
  offset_lt : c.blockOffset.toNat < d.blockSize.toNat

/-- The iterations that are left at most. -/
def iterationsLeft (d : DirScan τ) (c : DirCursor) : ℕ :=
  (d.blocks.toNat - c.currentBlock.toNat) * (d.blockSize.toNat + 1) - c.blockOffset.toNat

/-- An iteration stays in the block, farther on, or goes on to the next one. -/
theorem findDirStep_next (hbs : d.blockSize.toNat ≤ 2 ^ 31) {c c' : DirCursor} {t t' : τ}
    (hc : d.Placed c)
    (hstep : (d.findDirStep name c t).1 = .next c' t') :
    d.Placed c' ∧ d.iterationsLeft c' < d.iterationsLeft c := by
  rw [findDirStep_fst] at hstep
  split at hstep
  swap
  · cases hstep
  next hcond =>
  obtain ⟨hblock, hlarge, -⟩ := hcond
  have hoffset := hc.offset_lt
  have hlt := BitVec.lt_def.mp hblock
  set recLen := direntRecLen (d.frame.byte c.buffer) c.dirent with hrecLen
  have hge : 8 ≤ recLen.toNat := BitVec.le_def.mp (BitVec.not_lt.mp hlarge)
  have hmul : ∀ n, (n + 1) * (d.blockSize.toNat + 1) =
      n * (d.blockSize.toNat + 1) + (d.blockSize.toNat + 1) := fun n ↦ Nat.succ_mul _ _
  have hleft := hmul (d.blocks.toNat - c.currentBlock.toNat - 1)
  rw [show d.blocks.toNat - c.currentBlock.toNat - 1 + 1 = d.blocks.toNat - c.currentBlock.toNat by
    omega] at hleft
  obtain ⟨-, ⟨hstay, rfl, -⟩ | ⟨-, hnext, buffer, -, rfl⟩⟩ := findDirAdvance_next hstep
  · have hin : (c.blockOffset + recLen).toNat < d.blockSize.toNat :=
      BitVec.lt_def.mp (BitVec.not_le.mp hstay)
    have hshort : recLen.toNat < 2 ^ 16 := by
      rw [hrecLen, direntRecLen, BitVec.toNat_setWidth_of_le (by decide)]
      exact BitVec.isLt _
    have hadd : (c.blockOffset + recLen).toNat = c.blockOffset.toNat + recLen.toNat := by
      rw [BitVec.toNat_add, Nat.mod_eq_of_lt (by omega)]
    refine ⟨⟨rfl, hin⟩, ?_⟩
    rw [iterationsLeft, iterationsLeft]
    dsimp only
    omega
  · have hsucc : (c.currentBlock + 1).toNat = c.currentBlock.toNat + 1 := by bv_omega
    refine ⟨⟨rfl, by dsimp only; exact Nat.zero_lt_of_lt hoffset⟩, ?_⟩
    rw [iterationsLeft, iterationsLeft, hsucc, ← Nat.sub_sub, show (0 : U32).toNat = 0 from rfl]
    omega

/-- **The loop ends.** -/
theorem findDirLoop_isSome (hbs : d.blockSize.toNat ≤ 2 ^ 31) {fuel : ℕ} {c : DirCursor} (t : τ)
    (hc : d.Placed c) (hfuel : d.iterationsLeft c < fuel) :
    (d.findDirLoop name fuel c t).isSome = true := by
  induction fuel generalizing c t with
  | zero => exact absurd hfuel (Nat.not_lt_zero _)
  | succ fuel ih =>
    rw [findDirLoop]
    cases hstep : d.findDirStep name c t with
    | mk step reads =>
      cases step with
      | next c' t' =>
        obtain ⟨hc', hleft⟩ := findDirStep_next hbs hc (congrArg Prod.fst hstep)
        dsimp only
        rw [Option.isSome_map]
        exact ih t' hc' (by omega)
      | leave c' t' => rfl
      | null t' => rfl

theorem placed_start (hbs : 0 < d.blockSize.toNat) (buffer : List Byte) :
    d.Placed (.start buffer) := ⟨rfl, hbs⟩

/-- With the iterations that `find_dir` is given. -/
theorem findDirLoop_start (hbs : d.blockSize.toNat ≤ 2 ^ 31) (hpos : 0 < d.blockSize.toNat)
    (name : U64) (buffer : List Byte) (t : τ) :
    ∃ r, d.findDirLoop name d.findDirFuel (.start buffer) t = some r := by
  refine Option.isSome_iff_exists.mp (findDirLoop_isSome hbs t (placed_start hpos buffer) ?_)
  rw [iterationsLeft, findDirFuel, DirCursor.start, show (0 : U32).toNat = 0 from rfl, Nat.sub_zero,
    Nat.sub_zero]
  exact Nat.mul_lt_mul_of_pos_right (Nat.lt_succ_self _) (Nat.succ_pos _)

/-! ## Through a well-formed directory -/

/-- The directory that a scan goes through. -/
structure Dir (d : DirScan τ) (blocks : U32 → Option (List Byte)) (dir : List (List DirEntry)) :
    Prop where
  blockSize_pos : 0 < d.blockSize.toNat
  blockSize_le : d.blockSize.toNat ≤ 2 ^ 31
  tiled : ∀ j (hj : j < dir.length), ∃ block, blocks (BitVec.ofNat 32 j) = some block ∧
    Tiled (d.frame.byte block) d.blockSize.toNat 0 dir[j]
  iSize_eq : d.iSize.toNat = dir.length * d.blockSize.toNat
  iSize_le : d.iSize.toNat + 2 ^ 16 ≤ 2 ^ 32
  blocks_ge : dir.length ≤ d.blocks.toNat

/-- A cursor at an offset of a block. -/
structure CursorAt (d : DirScan τ) (c : DirCursor) (j o : ℕ) : Prop where
  currentBlock_eq : c.currentBlock.toNat = j
  blockOffset_eq : c.blockOffset.toNat = o
  totalOffset_eq : c.totalOffset.toNat = j * d.blockSize.toNat + o
  dirent_eq : c.dirent = o

variable {dir : List (List DirEntry)} {e : DirEntry} {c : DirCursor} {t : τ} {j o : ℕ}

theorem stopsAt_iff (hname : CString d.frame.mem name w) (hlen : w.length ≤ 255)
    {byte : ℕ → Byte} (hat : e.At byte o) :
    d.stopsAt name byte o = true ↔ e.inode ≠ 0 ∧ e.name = w := by
  rw [stopsAt, Bool.and_eq_true, decide_eq_true_eq, hat.inode_eq]
  by_cases hlive : e.inode = 0
  · rw [hlive]
    exact iff_of_false (fun h ↦ absurd h.1 (by decide)) fun h ↦ h.1 rfl
  · have hpos : e.inode > 0 := by bv_omega
    rw [nameMatches_at hname hlen hat hlive]
    exact ⟨fun h ↦ ⟨hlive, h.2⟩, fun h ↦ ⟨hpos, h.2⟩⟩

theorem Dir.length_lt (hd : d.Dir blocks dir) : dir.length < 2 ^ 32 := by
  have hlt := d.iSize.isLt
  rw [hd.iSize_eq] at hlt
  exact (Nat.le_mul_of_pos_right _ hd.blockSize_pos).trans_lt hlt

/-- A block is not empty. -/
theorem Dir.ne_nil (hd : d.Dir blocks dir) {byte : ℕ → Byte} {entries : List DirEntry}
    (htiled : Tiled byte d.blockSize.toNat 0 entries) : entries ≠ [] := by
  rintro rfl
  exact hd.blockSize_pos.ne htiled

/-- The record that is looked for. -/
theorem findDirStep_named (hname : CString d.frame.mem name w)
    (hlen : w.length ≤ 255) (hc : d.CursorAt c j o) (hat : e.At (d.frame.byte c.buffer) o)
    (hlive : e.inode ≠ 0) (hw : e.name = w) : (d.findDirStep name c t).1 = .leave c t := by
  rw [findDirStep_fst, hc.dirent_eq, if_neg]
  exact fun h ↦ h.2.2 ((stopsAt_iff hname hlen hat).mpr ⟨hlive, hw⟩)

/-- Behind any other. -/
theorem findDirStep_other (hd : d.Dir blocks dir) (hname : CString d.frame.mem name w)
    (hlen : w.length ≤ 255) (hc : d.CursorAt c j o) (hj : j < dir.length)
    (hat : e.At (d.frame.byte c.buffer) o) (hfit : o + e.recLen ≤ d.blockSize.toNat)
    (hother : ¬ (e.inode ≠ 0 ∧ e.name = w)) :
    ∃ recLen : U32, (d.findDirStep name c t).1 = d.findDirAdvance recLen c t ∧
      (c.blockOffset + recLen).toNat = o + e.recLen ∧
      (c.totalOffset + recLen).toNat = j * d.blockSize.toNat + (o + e.recLen) ∧
      ¬ c.totalOffset + recLen > d.iSize := by
  have hsize := hd.blockSize_le
  have htotal : j * d.blockSize.toNat + (o + e.recLen) ≤ d.iSize.toNat := by
    have hmul := Nat.mul_le_mul_right d.blockSize.toNat (Nat.succ_le_of_lt hj)
    rw [Nat.succ_mul] at hmul
    rw [hd.iSize_eq]
    omega
  have hlt := d.iSize.isLt
  have hblock : c.currentBlock < d.blocks := by
    have hge := hd.blocks_ge
    rw [BitVec.lt_def, hc.currentBlock_eq]
    omega
  have hlarge : ¬ direntRecLen (d.frame.byte c.buffer) o < 8 := by
    rw [BitVec.lt_def, hat.recLen_eq]
    exact not_lt.mpr hat.recLen_ge
  have hsum : (c.totalOffset + direntRecLen (d.frame.byte c.buffer) o).toNat =
      j * d.blockSize.toNat + (o + e.recLen) := by
    rw [BitVec.toNat_add, hc.totalOffset_eq, hat.recLen_eq, Nat.mod_eq_of_lt (by omega),
      Nat.add_assoc]
  refine ⟨direntRecLen (d.frame.byte c.buffer) o, ?_, ?_, hsum, ?_⟩
  · rw [findDirStep_fst, hc.dirent_eq, if_pos]
    exact ⟨hblock, hlarge, fun h ↦ hother ((stopsAt_iff hname hlen hat).mp h)⟩
  · rw [BitVec.toNat_add, hc.blockOffset_eq, hat.recLen_eq, Nat.mod_eq_of_lt (by omega)]
  · rw [gt_iff_lt, BitVec.lt_def, hsum]
    omega

/-- If there is another record in the block, it is next. -/
theorem findDirAdvance_stay {recLen : U32} (hc : d.CursorAt c j o) {o' : ℕ}
    (hoffset : (c.blockOffset + recLen).toNat = o') (hlt : o' < d.blockSize.toNat)
    (htotal : (c.totalOffset + recLen).toNat = j * d.blockSize.toNat + o')
    (hsize : ¬ c.totalOffset + recLen > d.iSize) :
    ∃ c', d.findDirAdvance recLen c t = .next c' t ∧ d.CursorAt c' j o' ∧ c'.buffer = c.buffer := by
  have hstay : ¬ c.blockOffset + recLen ≥ d.blockSize := by
    rw [ge_iff_le, BitVec.le_def, hoffset]
    exact not_le.mpr hlt
  refine ⟨⟨c.currentBlock, c.blockOffset + recLen, c.totalOffset + recLen,
    (c.blockOffset + recLen).toNat, c.buffer⟩, ?_, ⟨hc.currentBlock_eq, hoffset, htotal, hoffset⟩,
    rfl⟩
  rw [findDirAdvance]
  dsimp only
  rw [if_neg hsize, if_neg hstay]

/-- Behind the last one the loop goes on to the next block, if there is one. -/
theorem Loads.findDirAdvance_end (h : d.Loads blocks I) (ht : I t)
    (hlen : c.buffer.length = d.blockSize.toNat) {recLen : U32} (hc : d.CursorAt c j o)
    (hj : j + 1 < 2 ^ 32) (hoffset : (c.blockOffset + recLen).toNat = d.blockSize.toNat)
    (htotal : (c.totalOffset + recLen).toNat = (j + 1) * d.blockSize.toNat)
    (hsize : ¬ c.totalOffset + recLen > d.iSize) :
    ∃ t', I t' ∧
      ((d.findDirAdvance recLen c t = .null t' ∧
          ¬ (j + 1 < d.blocks.toNat ∧ (blocks (BitVec.ofNat 32 (j + 1))).isSome)) ∨
        ∃ c', d.findDirAdvance recLen c t = .next c' t' ∧ d.CursorAt c' (j + 1) 0 ∧
          j + 1 < d.blocks.toNat ∧ blocks (BitVec.ofNat 32 (j + 1)) = some c'.buffer) := by
  have hend : c.blockOffset + recLen ≥ d.blockSize := by
    rw [ge_iff_le, BitVec.le_def, hoffset]
  have hnext : c.currentBlock + 1 = BitVec.ofNat 32 (j + 1) := by
    rw [← BitVec.toNat_inj, BitVec.toNat_ofNat, Nat.mod_eq_of_lt hj, BitVec.toNat_add,
      hc.currentBlock_eq]
    exact Nat.mod_eq_of_lt hj
  have hnum : (BitVec.ofNat 32 (j + 1)).toNat = j + 1 := by
    rw [BitVec.toNat_ofNat, Nat.mod_eq_of_lt hj]
  obtain ⟨hload, ht'⟩ := h.load (BitVec.ofNat 32 (j + 1)) c.buffer t ht hlen
  rw [findDirAdvance]
  dsimp only
  rw [if_neg hsize, if_pos hend, hnext]
  by_cases hblock : BitVec.ofNat 32 (j + 1) ≥ d.blocks
  · rw [if_pos hblock]
    refine ⟨t, ht, .inl ⟨rfl, fun hlt ↦ ?_⟩⟩
    have hle := BitVec.le_def.mp hblock
    rw [hnum] at hle
    omega
  rw [if_neg hblock]
  have hlt : j + 1 < d.blocks.toNat := by
    have := BitVec.lt_def.mp (BitVec.not_le.mp hblock)
    rwa [hnum] at this
  cases hread : d.load (BitVec.ofNat 32 (j + 1)) c.buffer t with
  | mk block t' =>
    rw [hread] at hload ht'
    refine ⟨t', ht', ?_⟩
    cases block with
    | none =>
      refine .inl ⟨rfl, fun hsome ↦ ?_⟩
      rw [← hload] at hsome
      exact Bool.false_ne_true hsome.2
    | some buffer =>
      exact .inr ⟨⟨BitVec.ofNat 32 (j + 1), 0, c.totalOffset + recLen, 0, buffer⟩, rfl,
        ⟨hnum, rfl, htotal, rfl⟩, hlt, hload.symm⟩

/-- The block behind the last one is looked into if `i_blocks` leads there, and the first one
always. -/
def LooksInto (d : DirScan τ) (n : ℕ) : Prop := n = 0 ∨ n < d.blocks.toNat

/-- How the loop ends when no record has the name: with `nullptr`, or at the beginning of the block
behind the last one. -/
def EndsBehind (d : DirScan τ) (blocks : U32 → Option (List Byte)) (name : U64) (n : ℕ)
    (r : Option DirCursor) : Prop :=
  (r = none ∧ ∀ block, d.LooksInto n → blocks (BitVec.ofNat 32 n) = some block →
      ¬ d.stopsAt name (d.frame.byte block) 0 = true) ∨
    ∃ c, r = some c ∧ c.dirent = 0 ∧ d.LooksInto n ∧ blocks (BitVec.ofNat 32 n) = some c.buffer

/-- The loop ends, with a result like this. -/
def Ends (d : DirScan τ) (name : U64) (I : τ → Prop) (Q : Option DirCursor → Prop) (c : DirCursor)
    (t : τ) : Prop :=
  ∃ fuel r t' reads, d.findDirLoop name fuel c t = some (r, t', reads) ∧ I t' ∧ Q r

section

variable {Q : Option DirCursor → Prop} {c' : DirCursor} {t' : τ}

theorem Ends.next (hstep : (d.findDirStep name c t).1 = .next c' t') (h : d.Ends name I Q c' t') :
    d.Ends name I Q c t := by
  obtain ⟨fuel, r, t'', reads, hloop, hI, hQ⟩ := h
  exact ⟨fuel + 1, r, t'', _, findDirLoop_next hstep hloop, hI, hQ⟩

theorem Ends.leave (hstep : (d.findDirStep name c t).1 = .leave c' t') (hI : I t')
    (hQ : Q (some c')) : d.Ends name I Q c t := by
  refine ⟨1, some c', t', (d.findDirStep name c t).2, ?_, hI, hQ⟩
  rw [findDirLoop, show d.findDirStep name c t = (.leave c' t', (d.findDirStep name c t).2) from
    Prod.ext hstep rfl]

theorem Ends.null (hstep : (d.findDirStep name c t).1 = .null t') (hI : I t') (hQ : Q none) :
    d.Ends name I Q c t := by
  refine ⟨1, none, t', (d.findDirStep name c t).2, ?_, hI, hQ⟩
  rw [findDirLoop, show d.findDirStep name c t = (.null t', (d.findDirStep name c t).2) from
    Prod.ext hstep rfl]

end

/-- **In the block behind the last one** at most one record is looked at. -/
theorem ends_behind (hd : d.Dir blocks dir) (ht : I t) (hc : d.CursorAt c dir.length 0)
    (hinto : d.LooksInto dir.length)
    (hblock : blocks (BitVec.ofNat 32 dir.length) = some c.buffer) :
    d.Ends name I (d.EndsBehind blocks name dir.length) c t := by
  have hfst : (d.findDirStep name c t).1 = _ := findDirStep_fst c t
  rw [hc.dirent_eq] at hfst
  split at hfst
  · next hcond =>
    obtain ⟨-, hlarge, hother⟩ := hcond
    set recLen := direntRecLen (d.frame.byte c.buffer) 0 with hrecLen
    have hge : 8 ≤ recLen.toNat := BitVec.le_def.mp (BitVec.not_lt.mp hlarge)
    have hshort : recLen.toNat < 2 ^ 16 := by
      rw [hrecLen, direntRecLen, BitVec.toNat_setWidth_of_le (by decide)]
      exact BitVec.isLt _
    have htotal : c.totalOffset + recLen > d.iSize := by
      have hle := hd.iSize_le
      have heq := hd.iSize_eq
      rw [gt_iff_lt, BitVec.lt_def, BitVec.toNat_add, hc.totalOffset_eq,
        Nat.mod_eq_of_lt (by omega)]
      omega
    rw [findDirAdvance, if_pos htotal] at hfst
    refine .null hfst ht (.inl ⟨rfl, fun block _ hblock' ↦ ?_⟩)
    rw [hblock, Option.some.injEq] at hblock'
    exact hblock' ▸ hother
  · exact .leave hfst ht (.inr ⟨c, rfl, hc.dirent_eq, hinto, hblock⟩)

/-- The record that is looked for, if the directory has it. -/
def named (w : List Byte) (entries : List DirEntry) : Option DirEntry :=
  entries.find? fun e ↦ decide (e.inode ≠ 0 ∧ e.name = w)

/-- **In a block** the loop stops at the first record with the name, or comes to the last one. -/
theorem ends_block {Q : Option DirCursor → Prop} (hd : d.Dir blocks dir)
    (hname : CString d.frame.mem name w) (hlen : w.length ≤ 255) {entries : List DirEntry}
    (ht : I t) (hc : d.CursorAt c j o) (hj : j < dir.length) (hne : entries ≠ [])
    (htiled : Tiled (d.frame.byte c.buffer) d.blockSize.toNat o entries)
    (hfound : ∀ e, named w entries = some e → ∀ c', e.At (d.frame.byte c'.buffer) c'.dirent →
      Q (some c'))
    (hlast : named w entries = none → ∀ c' o' recLen, c'.buffer = c.buffer → d.CursorAt c' j o' →
      (d.findDirStep name c' t).1 = d.findDirAdvance recLen c' t →
      (c'.blockOffset + recLen).toNat = d.blockSize.toNat →
      (c'.totalOffset + recLen).toNat = (j + 1) * d.blockSize.toNat →
      ¬ c'.totalOffset + recLen > d.iSize → d.Ends name I Q c' t) : d.Ends name I Q c t := by
  induction entries generalizing c o with
  | nil => exact absurd rfl hne
  | cons e entries ih =>
    obtain ⟨hat, hrest⟩ := htiled
    by_cases hw : e.inode ≠ 0 ∧ e.name = w
    · refine .leave (findDirStep_named hname hlen hc hat hw.1 hw.2) ht (hfound e ?_ c ?_)
      · exact List.find?_cons_of_pos (decide_eq_true hw)
      · rwa [hc.dirent_eq]
    have hskip : named w (e :: entries) = named w entries :=
      List.find?_cons_of_neg (by rwa [decide_eq_true_eq])
    rw [hskip] at hfound hlast
    have hfit := hrest.le
    obtain ⟨recLen, hstep, hoffset, htotal, hsize⟩ :=
      findDirStep_other hd hname hlen hc hj hat (by omega) hw (t := t)
    cases entries with
    | nil =>
      have hend : o + e.recLen = d.blockSize.toNat := hrest
      rw [hend] at hoffset htotal
      exact hlast rfl c o recLen rfl hc hstep hoffset (by rwa [Nat.succ_mul]) hsize
    | cons e' entries =>
      rw [List.length_cons] at hfit
      obtain ⟨c', hnext, hc', hbuffer⟩ :=
        findDirAdvance_stay hc hoffset (by omega) htotal hsize (t := t)
      refine .next (hstep.trans hnext) (ih hc' (List.cons_ne_nil _ _) ?_ hfound ?_)
      · rwa [hbuffer]
      · rwa [hbuffer]

/-- What the loop finds. -/
def Finds (d : DirScan τ) (blocks : U32 → Option (List Byte)) (name : U64) (n : ℕ)
    (r : Option DirCursor) : Option DirEntry → Prop
  | some e => ∃ c, r = some c ∧ e.At (d.frame.byte c.buffer) c.dirent
  | none => d.EndsBehind blocks name n r

/-- **The loop finds the first record with the name**, or comes to the end. -/
theorem Loads.ends_dir (h : d.Loads blocks I) (hd : d.Dir blocks dir)
    (hname : CString d.frame.mem name w) (hlen : w.length ≤ 255) {rest : List (List DirEntry)}
    {entries : List DirEntry} (ht : I t) (hblock : blocks (BitVec.ofNat 32 j) = some c.buffer)
    (hc : d.CursorAt c j 0) (hj : j < dir.length) (hrest : dir.drop (j + 1) = rest)
    (htiled : Tiled (d.frame.byte c.buffer) d.blockSize.toNat 0 entries) :
    d.Ends name I (fun r ↦ d.Finds blocks name dir.length r (named w (entries ++ rest.flatten)))
      c t := by
  have hdir := hd.length_lt
  have hne := hd.ne_nil htiled
  have happend : named w (entries ++ rest.flatten) =
      (named w entries).or (named w rest.flatten) := List.find?_append
  induction rest generalizing entries c t j with
  | nil =>
    have hlast : j + 1 = dir.length := by
      have := List.drop_eq_nil_iff.mp hrest
      omega
    refine ends_block hd hname hlen ht hc hj hne htiled (fun e hfind c' hat ↦ ?_)
      fun hnone c' o' recLen hbuffer hc' hstep hoffset htotal hsize ↦ ?_
    · rw [happend, hfind]
      exact ⟨c', rfl, hat⟩
    rw [happend, hnone]
    obtain ⟨t', ht', ⟨hnull, hnext⟩ | ⟨c'', hnext, hc'', hlt, hblock''⟩⟩ :=
      h.findDirAdvance_end ht (by rw [hbuffer]; exact h.length _ _ hblock) hc' (by omega) hoffset
        htotal hsize
    · refine .null (hstep.trans hnull) ht' (.inl ⟨rfl, fun block hinto hblock' ↦ ?_⟩)
      rw [hlast, hblock'] at hnext
      have hzero : dir.length ≠ 0 := by omega
      exact absurd ⟨hinto.resolve_left hzero, rfl⟩ hnext
    · rw [hlast] at hc'' hlt hblock''
      exact .next (hstep.trans hnext) (ends_behind hd ht' hc'' (.inr hlt) hblock'')
  | cons next rest ih =>
    have hj' : j + 1 < dir.length := by
      by_contra hge
      rw [List.drop_eq_nil_of_le (not_lt.mp hge)] at hrest
      cases hrest
    have hge := hd.blocks_ge
    rw [List.drop_eq_getElem_cons hj'] at hrest
    obtain ⟨rfl, hrest'⟩ := List.cons.inj hrest
    obtain ⟨block, hload, htiled'⟩ := hd.tiled (j + 1) hj'
    refine ends_block hd hname hlen ht hc hj hne htiled (fun e hfind c' hat ↦ ?_)
      fun hnone c' o' recLen hbuffer hc' hstep hoffset htotal hsize ↦ ?_
    · rw [happend, hfind]
      exact ⟨c', rfl, hat⟩
    rw [happend, hnone]
    obtain ⟨t', ht', ⟨-, hnext⟩ | ⟨c'', hnext, hc'', hlt, hblock''⟩⟩ :=
      h.findDirAdvance_end ht (by rw [hbuffer]; exact h.length _ _ hblock) hc' (by omega) hoffset
        htotal hsize
    · rw [hload] at hnext
      exact absurd ⟨by omega, rfl⟩ hnext
    · have hbuffer'' : block = c''.buffer := Option.some.inj (hload.symm.trans hblock'')
      exact .next (hstep.trans hnext) (ih ht' hblock'' hc'' hj' hrest' (hbuffer'' ▸ htiled')
        (hd.ne_nil htiled') List.find?_append)

/-- From the beginning of the directory. -/
theorem Loads.ends_start (h : d.Loads blocks I) (hd : d.Dir blocks dir)
    (hname : CString d.frame.mem name w) (hlen : w.length ≤ 255) (ht : I t) {block : List Byte}
    (hblock : blocks 0 = some block) :
    d.Ends name I (fun r ↦ d.Finds blocks name dir.length r (named w dir.flatten)) (.start block)
      t := by
  have hc : d.CursorAt (.start block) 0 0 := ⟨rfl, rfl, (Nat.zero_mul _).symm, rfl⟩
  by_cases hpos : 0 < dir.length
  · obtain ⟨block', hblock', htiled⟩ := hd.tiled 0 hpos
    obtain rfl : block = block' := Option.some.inj (hblock.symm.trans hblock')
    have hflatten : dir.flatten = dir[0] ++ (dir.drop 1).flatten := by
      rw [← List.flatten_cons, ← List.drop_eq_getElem_cons hpos, List.drop_zero]
    rw [hflatten]
    exact h.ends_dir hd hname hlen ht hblock hc hpos rfl htiled
  · obtain rfl : dir = [] := List.eq_nil_of_length_eq_zero (by omega)
    exact ends_behind hd ht hc (.inl rfl) hblock

/-- The block behind the last one begins with a record that has the name and an inode number of the
volume, and is looked into. -/
def NamedBehind (d : DirScan τ) (blocks : U32 → Option (List Byte)) (w : List Byte)
    (inodeCount : U32) (n : ℕ) (i : U32) : Prop :=
  d.LooksInto n ∧ ∃ block, blocks (BitVec.ofNat 32 n) = some block ∧
    direntNameLen (d.frame.byte block) 0 = w.length ∧
    (∀ k (h : k < w.length), direntName (d.frame.byte block) 0 k = w[k]) ∧
    direntInode (d.frame.byte block) 0 = i ∧ i ≠ 0 ∧ i ≤ inodeCount

/-- What is found: the record with the name, or else the one behind the directory. -/
def Found (d : DirScan τ) (blocks : U32 → Option (List Byte)) (w : List Byte) (inodeCount : U32)
    (n : ℕ) (r : Option U32) : Option DirEntry → Prop
  | some e => r = some e.inode
  | none => ∀ i, r = some i ↔ d.NamedBehind blocks w inodeCount n i

theorem named_eq_some {entries : List DirEntry} (h : named w entries = some e) :
    e ∈ entries ∧ e.inode ≠ 0 ∧ e.name = w :=
  ⟨List.mem_of_find?_eq_some h, of_decide_eq_true (List.find?_some h :)⟩

/-- The test behind the loop, at the record it was left with. -/
theorem findEntry_leave (inodeCount : U32) {buffer block : List Byte} {t₁ t₂ : τ} {reads : List ℕ}
    (hload : d.load 0 buffer t = (some block, t₁))
    (hloop : d.findDirLoop name d.findDirFuel (.start block) t₁ = some (some c, t₂, reads)) :
    ∃ reads', d.findEntry name inodeCount buffer t =
      some (if (d.nameMatches name (d.frame.byte c.buffer) c.dirent).1 = true ∧
          direntInode (d.frame.byte c.buffer) c.dirent ≠ 0 ∧
          direntInode (d.frame.byte c.buffer) c.dirent ≤ inodeCount
        then some (direntInode (d.frame.byte c.buffer) c.dirent) else none, t₂, reads') := by
  rw [findEntry, hload]
  dsimp only
  rw [hloop]
  dsimp only
  by_cases hfound : (d.nameMatches name (d.frame.byte c.buffer) c.dirent).1 = true
  swap
  · rw [if_pos (by rw [Bool.eq_false_of_not_eq_true hfound]; rfl), if_neg (fun h ↦ hfound h.1)]
    exact ⟨_, rfl⟩
  rw [if_neg (by rw [hfound]; exact Bool.false_ne_true)]
  by_cases hinode : direntInode (d.frame.byte c.buffer) c.dirent = 0 ∨
      direntInode (d.frame.byte c.buffer) c.dirent > inodeCount
  · rw [if_pos hinode, if_neg]
    · exact ⟨_, rfl⟩
    · exact fun h ↦ hinode.elim h.2.1 fun hgt ↦ BitVec.not_lt.mpr h.2.2 hgt
  · obtain ⟨hne, hle⟩ := not_or.mp hinode
    rw [if_neg hinode, if_pos ⟨hfound, hne, BitVec.not_lt.mp hle⟩]
    exact ⟨_, rfl⟩

/-- **`find_dir` in a well-formed directory.** -/
theorem Loads.findEntry (h : d.Loads blocks I) (hd : d.Dir blocks dir)
    (hname : CString d.frame.mem name w) (hlen : w.length ≤ 255) (ht : I t) {inodeCount : U32}
    (hcount : ∀ e ∈ dir.flatten, e.inode ≠ 0 → e.inode ≤ inodeCount) {buffer : List Byte}
    (hbuffer : buffer.length = d.blockSize.toNat) :
    ∃ r t' reads, d.findEntry name inodeCount buffer t = some (r, t', reads) ∧ I t' ∧
      d.Found blocks w inodeCount dir.length r (named w dir.flatten) := by
  obtain ⟨hload, ht₁⟩ := h.load 0 buffer t ht hbuffer
  cases hread : d.load 0 buffer t with
  | mk block t₁ =>
  rw [hread] at hload ht₁
  cases block with
  | none =>
    have hempty : dir = [] := by
      by_contra hne
      obtain ⟨block, hblock, -⟩ := hd.tiled 0 (List.length_pos_of_ne_nil hne)
      cases hload.trans hblock
    subst hempty
    refine ⟨none, t₁, [], by rw [DirScan.findEntry, hread], ht₁, fun i ↦ ?_⟩
    refine iff_of_false nofun ?_
    rintro ⟨-, block, hblock, -⟩
    cases hload.trans hblock
  | some block =>
    obtain ⟨fuel, r, t₂, reads, hloop, ht₂, hfinds⟩ :=
      h.ends_start hd hname hlen ht₁ hload.symm
    obtain ⟨r', hfuel⟩ := findDirLoop_start hd.blockSize_le hd.blockSize_pos name block t₁
    obtain rfl := findDirLoop_unique hloop hfuel
    cases r with
    | none =>
      refine ⟨none, t₂, reads, ?_, ht₂, ?_⟩
      · rw [DirScan.findEntry, hread]
        dsimp only
        rw [hfuel]
      · cases hnamed : named w dir.flatten with
        | some e =>
          rw [hnamed] at hfinds
          obtain ⟨c, hc, -⟩ := hfinds
          cases hc
        | none =>
          rw [hnamed] at hfinds
          obtain ⟨-, hother⟩ | ⟨c, hc, -⟩ := hfinds
          swap
          · cases hc
          refine fun i ↦ iff_of_false nofun ?_
          rintro ⟨hinto, block', hblock', hnameLen, hchars, hi, hne, -⟩
          refine hother block' hinto hblock' ?_
          rw [stopsAt, Bool.and_eq_true, decide_eq_true_eq, nameMatches_iff hname hlen, hi]
          exact ⟨by bv_omega, hnameLen, hchars⟩
    | some c =>
      obtain ⟨reads', hentry⟩ := findEntry_leave inodeCount hread hfuel
      refine ⟨_, t₂, reads', hentry, ht₂, ?_⟩
      cases hnamed : named w dir.flatten with
      | some e =>
        rw [hnamed] at hfinds
        obtain ⟨c', hc', hat⟩ := hfinds
        obtain rfl := Option.some.inj hc'
        obtain ⟨hmem, hlive, hw⟩ := named_eq_some hnamed
        rw [Found, hat.inode_eq, if_pos]
        exact ⟨(nameMatches_at hname hlen hat hlive).mpr hw, hlive, hcount e hmem hlive⟩
      | none =>
        rw [hnamed] at hfinds
        obtain ⟨hnull, -⟩ | ⟨c', hc', hdirent, hinto, hblock⟩ := hfinds
        · cases hnull
        obtain rfl := Option.some.inj hc'
        rw [hdirent]
        have hmatches := nameMatches_iff hname hlen (d.frame.byte c.buffer) 0
        intro i
        constructor
        · intro hi
          split at hi
          · next hcond =>
            obtain rfl := Option.some.inj hi
            obtain ⟨hnameLen, hchars⟩ := hmatches.mp hcond.1
            exact ⟨hinto, c.buffer, hblock, hnameLen, hchars, rfl, hcond.2⟩
          · cases hi
        · rintro ⟨-, block', hblock', hnameLen, hchars, rfl, hcond⟩
          obtain rfl := Option.some.inj (hblock.symm.trans hblock')
          rw [if_pos ⟨hmatches.mpr ⟨hnameLen, hchars⟩, hcond⟩]

end DirScan

/-! ## On a mounted volume -/

namespace Ext2Volume

variable {v : Ext2Volume σ} {node : Ext2Dir} {dir : List (List DirEntry)}

/-- A file of so many blocks has a size that is at least a record below 2³²: either the blocks are
small, or the size is a multiple of 2¹⁶. -/
theorem size_add_le (h : WellFormedDir v node dir) : node.size.toNat + 2 ^ 16 ≤ 2 ^ 32 := by
  have hsize := h.size_eq
  have hlt := node.size.isLt
  have hle := h.length_le
  rw [entries, v.toNat_blockSize] at hle
  rw [v.toNat_blockSize] at hsize
  rcases Nat.le_total v.logBlockSize 6 with hsmall | hlarge
  · have hpow : 2 ^ (10 + v.logBlockSize) ≤ 2 ^ 16 := Nat.pow_le_pow_right (by decide) (by omega)
    have hmul := Nat.mul_le_mul (show dir.length ≤ 12 + 2 ^ 14 by omega) hpow
    omega
  · obtain ⟨m, hm⟩ : 2 ^ 16 ∣ node.size.toNat :=
      hsize ▸ Dvd.dvd.mul_left (pow_dvd_pow 2 (by omega)) _
    omega

/-- A scan of a well-formed directory. -/
theorem dir_dirScan (h : WellFormedDir v node dir) (cache : Bool) (frame : Frame) :
    (v.dirScan node cache frame).Dir (v.dirBlock node) dir where
  blockSize_pos := v.blockSize_pos
  blockSize_le := v.blockSize_le
  tiled j hj := by
    have hlt : j < 2 ^ 32 := by
      have hsize := h.size_eq
      have := Nat.le_mul_of_pos_right dir.length v.blockSize_pos
      omega
    have hnum : (BitVec.ofNat 32 j).toNat = j := by
      rw [BitVec.toNat_ofNat, Nat.mod_eq_of_lt hlt]
    refine ⟨_, dirBlock_eq h (by rwa [hnum]), ?_⟩
    rw [hnum]
    exact tiled_frame h hj frame
  iSize_eq := h.size_eq
  iSize_le := size_add_le h
  blocks_ge := h.blocks_ge

end Ext2Volume

/-- The caches agree with the disk and with the inode numbers. -/
structure DirState.Coherent (v : Ext2Volume σ) (s : DirState σ) : Prop where
  volume : v.Coherent s.volume
  inodes : ∀ n cached, s.inodes.get n = some cached → cached.inode = n

/-- A node that is put into the cache is found under its own number. -/
theorem DirState.Coherent.set {v : Ext2Volume σ} {s : DirState σ} (h : s.Coherent v)
    {t : VolumeState σ} (ht : v.Coherent t) (cached : CachedNode) :
    DirState.Coherent v ⟨t, ((s.inodes.set cached.inode cached).map Prod.fst).getD s.inodes⟩ := by
  refine ⟨ht, fun n cached' hget ↦ ?_⟩
  cases hset : s.inodes.set cached.inode cached with
  | none =>
    rw [hset] at hget
    exact h.inodes n cached' hget
  | some r =>
    obtain ⟨inodes, freed⟩ := r
    rw [hset] at hget
    rcases LruCache.get_of_set hset hget with ⟨rfl, rfl⟩ | hold
    · rfl
    · exact h.inodes n cached' hold

namespace Ext2Device

variable (d : Ext2Device σ) {sb : SuperBlock} {hlog : sb.logBlockSize.toNat ≤ 21}
  {blockGroups : List Byte} {node : Ext2Dir} {dir : List (List DirEntry)} {name : U64}
  {w : List Byte} {frame : Frame} {buffer : List Byte} {s : DirState σ}

/-- **What `find_dir` should return**: a node with the inode number of the record that is in use and
has the name, or `nullptr`. -/
def FindsEntry (sb : SuperBlock) (hlog : sb.logBlockSize.toNat ≤ 21) (blockGroups : List Byte)
    (node : Ext2Dir) (dir : List (List DirEntry)) (name : U64) (w : List Byte) (frame : Frame)
    (buffer : List Byte) (s : DirState σ) : Prop :=
  ∃ r, d.findDir sb hlog blockGroups node name frame buffer s = some (.ok r) ∧
    r.node.map CachedNode.inode = (DirScan.named w dir.flatten).map DirEntry.inode

variable {d}

/-- Reading an inode keeps the cache of blocks as it should be. -/
theorem coherent_readInode (hfixed : d.media.Fixed) (blockGroups : List Byte) {num : U32}
    (haddr : InodeAddressable sb num)
    {t : VolumeState σ} (ht : (d.toVolume sb hlog).Coherent t) :
    ∃ e bytes t', d.readInode sb blockGroups num t = .ok (e, bytes, t') ∧ 0 ≤ e ∧
      (d.toVolume sb hlog).Coherent t' := by
  have hmallocs : (d.toVolume sb hlog).Coherent { t with mallocs := t.mallocs + 1 } :=
    ht.congr hfixed rfl
  have hcoherent : (d.toVolume sb hlog).Coherent
      (d.readInodeBlock sb haddr.logBlockSize_le blockGroups num t).2.2 :=
    hmallocs.readBlock hfixed _ _ _
  have heq : d.readInode sb blockGroups num t = _ := haddr.readInode_eq
  split at heq
  · exact ⟨1, none, _, heq, Int.one_nonneg, hcoherent⟩
  · exact ⟨0, _, _, heq, le_rfl, hcoherent⟩

/-- **`find_dir` returns the node of the record that it finds**, and leaves the caches as they
should be. -/
theorem findDir_eq (blockGroups : List Byte) (hv : (d.toVolume sb hlog).Readable)
    (hs : s.Coherent (d.toVolume sb hlog))
    (hbuffer : buffer.length = (d.toVolume sb hlog).blockSize.toNat)
    (hname : CString frame.mem name w) (hlen : w.length ≤ 255)
    (hdir : WellFormedDir (d.toVolume sb hlog) node dir)
    (hcount : ∀ e ∈ dir.flatten, e.inode ≠ 0 → e.inode ≤ sb.inodeCount)
    (haddr : ∀ n, n ≠ 0 → n ≤ sb.inodeCount → InodeAddressable sb n) :
    ∃ r, d.findDir sb hlog blockGroups node name frame buffer s = some (.ok r) ∧
      r.state.Coherent (d.toVolume sb hlog) ∧
      ((d.toVolume sb hlog).dirScan node true frame).Found ((d.toVolume sb hlog).dirBlock node) w
        sb.inodeCount dir.length (r.node.map CachedNode.inode) (DirScan.named w dir.flatten) := by
  set v := d.toVolume sb hlog with hvol
  obtain ⟨r, t, reads, hentry, ht, hfound⟩ :=
    (hv.loads node true frame).findEntry (Ext2Volume.dir_dirScan hdir true frame) hname hlen
      hs.volume hcount hbuffer
  have hentry' : v.findDirEntry node name sb.inodeCount frame buffer s.volume =
      some (r, t, reads) := by
    rw [Ext2Volume.findDirEntry, hdir.isDir, if_neg (show ¬ (!true) = true from
      Bool.false_ne_true), if_neg hdir.inode_ne]
    exact hentry
  rw [findDir, ← hvol, hentry']
  cases r with
  | none => exact ⟨_, rfl, ⟨ht, hs.inodes⟩, hfound⟩
  | some inode =>
    dsimp only
    have hnum : inode ≠ 0 ∧ inode ≤ sb.inodeCount := by
      cases hnamed : DirScan.named w dir.flatten with
      | some e =>
        rw [hnamed] at hfound
        obtain ⟨hmem, hlive, -⟩ := DirScan.named_eq_some hnamed
        rw [Option.some.inj hfound]
        exact ⟨hlive, hcount e hmem hlive⟩
      | none =>
        rw [hnamed] at hfound
        obtain ⟨-, -, -, -, -, -, hnum⟩ := (hfound inode).mp rfl
        exact hnum
    cases hget : s.inodes.get inode with
    | some cached =>
      refine ⟨_, rfl, ⟨ht, hs.inodes⟩, ?_⟩
      rw [Option.map_some, hs.inodes inode cached hget]
      exact hfound
    | none =>
      obtain ⟨e, bytes, t', hread, hcode, ht'⟩ :=
        coherent_readInode hv.fixed blockGroups (haddr inode hnum.1 hnum.2) ht
      dsimp only
      rw [hread]
      dsimp only
      rw [if_neg (not_lt.mpr hcode)]
      exact ⟨_, rfl, hs.set ht' ⟨inode, bytes⟩, hfound⟩

/-- **When a lookup is right**: the name is in use in the directory, or else the block behind the
last one is not looked into, or does not begin with a record of that name. -/
theorem findsEntry_iff (hv : (d.toVolume sb hlog).Readable) (hs : s.Coherent (d.toVolume sb hlog))
    (hbuffer : buffer.length = (d.toVolume sb hlog).blockSize.toNat)
    (hname : CString frame.mem name w) (hlen : w.length ≤ 255)
    (hdir : WellFormedDir (d.toVolume sb hlog) node dir)
    (hcount : ∀ e ∈ dir.flatten, e.inode ≠ 0 → e.inode ≤ sb.inodeCount)
    (haddr : ∀ n, n ≠ 0 → n ≤ sb.inodeCount → InodeAddressable sb n) :
    d.FindsEntry sb hlog blockGroups node dir name w frame buffer s ↔
      (∃ e ∈ dir.flatten, e.inode ≠ 0 ∧ e.name = w) ∨
        ¬ ∃ i, ((d.toVolume sb hlog).dirScan node true frame).NamedBehind
          ((d.toVolume sb hlog).dirBlock node) w sb.inodeCount dir.length i := by
  obtain ⟨r, hr, -, hfound⟩ :=
    findDir_eq blockGroups hv hs hbuffer hname hlen hdir hcount haddr
  have hiff : d.FindsEntry sb hlog blockGroups node dir name w frame buffer s ↔
      r.node.map CachedNode.inode = (DirScan.named w dir.flatten).map DirEntry.inode := by
    constructor
    · rintro ⟨r', hr', hnode⟩
      obtain rfl := Except.ok.inj (Option.some.inj (hr.symm.trans hr'))
      exact hnode
    · exact fun hnode ↦ ⟨r, hr, hnode⟩
  rw [hiff]
  cases hnamed : DirScan.named w dir.flatten with
  | some e =>
    rw [hnamed] at hfound
    obtain ⟨hmem, hlive, hw⟩ := DirScan.named_eq_some hnamed
    exact iff_of_true hfound (.inl ⟨e, hmem, hlive, hw⟩)
  | none =>
    rw [hnamed] at hfound
    have hnone : ¬ ∃ e ∈ dir.flatten, e.inode ≠ 0 ∧ e.name = w := by
      rintro ⟨e, hmem, hlive⟩
      exact List.find?_eq_none.mp hnamed e hmem (decide_eq_true hlive)
    rw [or_iff_right hnone, Option.map_none, Option.eq_none_iff_forall_ne_some, not_exists]
    exact forall_congr' fun i ↦ not_congr (hfound i)

end Ext2Device

/-! ### A directory with an old block behind it -/

/-- The disk of `dotImage` with another block of records, where `a` is inode 2. -/
def staleImage : DiskImage where
  bytes p :=
    if p < 2048 then dotImage.bytes p
    else [2, 0, 0, 0, 12, 0, 1, 2, 0x61].getD (p - 2048) 0
  fails _ := false

/-- The same directory, with that block as its second one and the size of one. -/
def staleDir : Ext2Dir := ⟨⟨1024, fun i ↦ if i = 0 then 1 else if i = 1 then 2 else 0⟩, true, 2, 4⟩

/-- The disk as a partition with a volume. -/
def staleDevice : Ext2Device Unit :=
  { staleImage.toDevice with partition := ⟨0, 2 ^ 40⟩ }

/-- The superblock of the volume. -/
def staleSuperBlock : SuperBlock := ⟨16, 40, 0, 8192, 16, 0xef53, 0, ⟨0, 0, 0⟩⟩

/-- A call, with the name at address 8192. -/
def staleFrame (c : Byte) : Frame := ⟨fun a ↦ if a = 0x2000 then c else 0, 0x8000, 0x9000⟩

/-- The caches of a volume just mounted. -/
def freshState : DirState Unit := ⟨DiskImage.mounted, LruCache.new 1600 true⟩

namespace Ext2Device

theorem cstring_staleFrame {c : Byte} (hc : c ≠ 0) : CString (staleFrame c).mem 0x2000 [c] where
  char i hi := by
    obtain rfl : i = 0 := Nat.lt_one_iff.mp hi
    rfl
  null := rfl
  ne_zero c' hmem := by
    obtain rfl := List.mem_singleton.mp hmem
    exact hc

theorem coherent_freshState (v : Ext2Volume Unit) : freshState.Coherent v where
  volume := v.coherent_new rfl
  inodes _ _ hget := by cases hget

theorem addressable_stale (n : U32) (hne : n ≠ 0) (hle : n ≤ staleSuperBlock.inodeCount) :
    InodeAddressable staleSuperBlock n where
  inodesPerGroup_ne := by decide
  group_lt := by
    have hgroup : (n - 1) / staleSuperBlock.inodesPerGroup = 0 := by
      refine udiv_eq_zero_iff.mpr (.inr ?_)
      have hle' : n ≤ 16 := hle
      change n - 1 < 16
      bv_omega
    rw [hgroup]
    decide
  logBlockSize_le := by decide
  inodeSize_ne := by decide
  inodeSize_le := by decide

theorem readable_stale : (staleDevice.toVolume staleSuperBlock (by decide)).Readable :=
  staleImage.readable_toVolume 40 (by decide) fun _ ↦ rfl

theorem wellFormed_stale :
    WellFormedDir (staleDevice.toVolume staleSuperBlock (by decide)) staleDir dotEntries :=
  wellFormed_dots staleImage (fun _ hp ↦ if_pos hp) rfl (by decide)

theorem length_staleBuffer : (List.replicate 1024 (0 : Byte)).length =
    (staleDevice.toVolume staleSuperBlock (by decide)).blockSize.toNat :=
  List.length_replicate

theorem findsEntry_dot :
    staleDevice.FindsEntry staleSuperBlock (by decide) [] staleDir dotEntries 0x2000 [0x2e]
        (staleFrame 0x2e) (List.replicate 1024 0) freshState ↔
      (∃ e ∈ dotEntries.flatten, e.inode ≠ 0 ∧ e.name = [0x2e]) ∨
        ¬ ∃ i, ((staleDevice.toVolume staleSuperBlock (by decide)).dirScan staleDir true
          (staleFrame 0x2e)).NamedBehind
            ((staleDevice.toVolume staleSuperBlock (by decide)).dirBlock staleDir) [0x2e]
            staleSuperBlock.inodeCount dotEntries.length i :=
  findsEntry_iff readable_stale (coherent_freshState _) length_staleBuffer
    (cstring_staleFrame (by decide)) (by decide) wellFormed_stale (by decide) addressable_stale

/-- The old block begins with a record for `a`. -/
theorem namedBehind_stale :
    ((staleDevice.toVolume staleSuperBlock (by decide)).dirScan staleDir true
      (staleFrame 0x61)).NamedBehind
        ((staleDevice.toVolume staleSuperBlock (by decide)).dirBlock staleDir) [0x61]
        staleSuperBlock.inodeCount dotEntries.length 2 := by
  set v := staleDevice.toVolume staleSuperBlock (by decide) with hv
  have hbs : v.blockSize.toNat = 1024 := v.toNat_blockSize
  have hbyte : ∀ p < 1024, (staleFrame 0x61).byte (v.blockBytes 2) p =
      staleImage.bytes (2 * 1024 + p) := fun p hp ↦ by
    rw [show (2 * 1024 + p) = (2 : U32).toNat * v.blockSize.toNat + p by rw [hbs]; rfl]
    refine staleImage.byte_blockBytes 40 (Nat.zero_le 21) (staleFrame 0x61) ?_ (hbs ▸ hp)
    change (2 + 1) * v.blockSize.toNat ≤ 2 ^ 41
    omega
  have hword : direntInode ((staleFrame 0x61).byte (v.blockBytes 2)) 0 = 2 := by
    rw [direntInode, le32, hbyte 0 (by decide), hbyte 1 (by decide), hbyte 2 (by decide),
      hbyte 3 (by decide)]
    decide
  have hlen : direntNameLen ((staleFrame 0x61).byte (v.blockBytes 2)) 0 = 1 := by
    rw [direntNameLen, hbyte 6 (by decide)]
    decide
  have hchar : direntName ((staleFrame 0x61).byte (v.blockBytes 2)) 0 0 = 0x61 := by
    rw [direntName, hbyte 8 (by decide)]
    decide
  have hload : v.dirBlock staleDir 1 = some (v.blockBytes 2) := by
    have hfound : v.foundOnDisk staleDir.toExt2File 1 = 2 := by
      rw [Ext2Volume.foundOnDisk, if_pos (by decide)]
      rfl
    rw [Ext2Volume.dirBlock, hfound, if_neg]
    · rfl
    · exact (by decide : ¬ ((2 : ℤ) < 1 ∨ BitVec.ofInt 32 2 > 40))
  refine ⟨.inr (by decide), v.blockBytes 2, hload, hlen, fun k hk ↦ ?_, hword, by decide, by decide⟩
  obtain rfl : k = 0 := Nat.lt_one_iff.mp hk
  exact hchar

/-- A directory of one block, in which `a` is looked for: it is in a second block that `i_blocks`
and `i_block` still lead to. -/
theorem exists_not_findsEntry :
    ¬ ∀ (d : Ext2Device Unit) (sb : SuperBlock) (hlog : sb.logBlockSize.toNat ≤ 21)
      (blockGroups : List Byte) (node : Ext2Dir) (dir : List (List DirEntry)) (name : U64)
      (w : List Byte) (frame : Frame) (buffer : List Byte) (s : DirState Unit),
      (d.toVolume sb hlog).Readable → s.Coherent (d.toVolume sb hlog) →
        buffer.length = (d.toVolume sb hlog).blockSize.toNat → CString frame.mem name w →
        1 ≤ w.length → w.length ≤ 255 → WellFormedDir (d.toVolume sb hlog) node dir →
        ((dir.flatten.filter fun e ↦ e.inode ≠ 0).map DirEntry.name).Nodup →
        (∀ e ∈ dir.flatten, e.inode ≠ 0 → e.inode ≤ sb.inodeCount) →
        (∀ n, n ≠ 0 → n ≤ sb.inodeCount → InodeAddressable sb n) →
          d.FindsEntry sb hlog blockGroups node dir name w frame buffer s := by
  intro h
  have hname : CString (staleFrame 0x61).mem 0x2000 [0x61] := cstring_staleFrame (by decide)
  obtain ⟨r, hr, hnode⟩ := h staleDevice staleSuperBlock (by decide) [] staleDir dotEntries 0x2000
    [0x61] (staleFrame 0x61) (List.replicate 1024 0) freshState readable_stale
    (coherent_freshState _) length_staleBuffer hname (by decide) (by decide) wellFormed_stale
    (by decide) (by decide) addressable_stale
  obtain ⟨r', hr', -, hfound⟩ := findDir_eq [] readable_stale (coherent_freshState _)
    length_staleBuffer hname (by decide) wellFormed_stale (by decide) addressable_stale
  obtain rfl := Except.ok.inj (Option.some.inj (hr.symm.trans hr'))
  have hnone : DirScan.named [0x61] dotEntries.flatten = none := by decide
  rw [hnone] at hfound hnode
  have hsome := (hfound 2).mpr namedBehind_stale
  rw [hnode] at hsome
  cases hsome

end Ext2Device

end Borrrdex
