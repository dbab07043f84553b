import Borrrdex.Fs.FindDir
import Borrrdex.Fs.ReadDir

/-!
# Where a directory is read

`find_dir` and `read_dir` follow the record lengths that they find on the disk, and a pointer into
the buffer goes along.  The records that they come to are given here by the bytes alone: `findNext`
and `readNext` say which record is behind one, in the same block or in the next.  A call reads only
the buffer if and only if that is so for each of these records (`dirReadsInside_iff`), which is not
for every directory: the offset of a record is compared with the size of a block, its end is not,
and `read_dir` goes on to a record that begins where the buffer ends.
-/

set_option autoImplicit false

namespace Borrrdex

open FlatMemory

variable {σ τ : Type}

/-! ## Chains -/

section

variable {α : Type} {next : α → Option α} {P : α → Prop} {x x' : α}

/-- An element has the property, and so has every one behind it. -/
def Along (next : α → Option α) (P : α → Prop) (x : α) : Prop :=
  ∀ y, Relation.ReflTransGen (fun a b ↦ next a = some b) x y → P y

theorem along_last (h : next x = none) : Along next P x ↔ P x := by
  refine ⟨fun hall ↦ hall x .refl, fun hx y hy ↦ ?_⟩
  rcases hy.cases_head with rfl | ⟨z, hz, -⟩
  · exact hx
  · rw [h] at hz
    cases hz

theorem along_next (h : next x = some x') : Along next P x ↔ P x ∧ Along next P x' := by
  refine ⟨fun hall ↦ ⟨hall x .refl, fun y hy ↦ hall y (hy.head h)⟩, fun ⟨hx, hall⟩ y hy ↦ ?_⟩
  rcases hy.cases_head with rfl | ⟨z, hz, hrest⟩
  · exact hx
  · obtain rfl := Option.some.inj (h.symm.trans hz)
    exact hall y hrest

end

/-- Where a record is. -/
structure DirPlace where
  block : ℕ
  offset : ℕ

namespace DirScan

variable (d : DirScan τ) (blocks : ℕ → Option (List Byte)) (name : U64)

/-! ## The blocks -/

/-- A block, loaded into the buffer, with what is then the state. -/
def fetch (j : U32) (x : List Byte × τ) : Option (List Byte × τ) :=
  (d.load j x.1 x.2).1.map fun block ↦ (block, (d.load j x.1 x.2).2)

/-- The blocks, loaded one after the other. -/
def loaded (start : List Byte × τ) : ℕ → Option (List Byte × τ)
  | 0 => d.fetch 0 start
  | j + 1 => (loaded start j).bind (d.fetch (BitVec.ofNat 32 (j + 1)))

/-- What is in them. -/
def content (start : List Byte × τ) (j : ℕ) : Option (List Byte) := (d.loaded start j).map Prod.fst

/-! ## The records -/

/-- The place behind a record: in the block if the offset is below `limit`, and else in the next. -/
def behind (limit : ℕ) (x : DirPlace) (recLen : ℕ) : Option DirPlace :=
  if x.offset + recLen < limit then some ⟨x.block, x.offset + recLen⟩
  else if x.block + 1 < d.blocks.toNat ∧ (blocks (x.block + 1)).isSome then some ⟨x.block + 1, 0⟩
  else none

/-- The record that `find_dir` comes to behind one, and the sum of the lengths up to it: none behind
one with the name, or when the sum is greater than the size. -/
def findNext (x : DirPlace × U32) : Option (DirPlace × U32) :=
  (blocks x.1.block).bind fun block ↦
    let byte := d.frame.byte block
    let recLen := direntRecLen byte x.1.offset
    if x.1.block < d.blocks.toNat ∧ 8 ≤ recLen.toNat ∧ ¬ d.stopsAt name byte x.1.offset = true ∧
        ¬ x.2 + recLen > d.iSize
    then (d.behind blocks d.blockSize.toNat x.1 recLen.toNat).map fun y ↦ (y, x.2 + recLen)
    else none

/-- The record that `read_dir` comes to behind one, and how many are left to pass over: an unused
one counts twice. -/
def readNext (x : DirPlace × ℕ) : Option (DirPlace × ℕ) :=
  (blocks x.1.block).bind fun block ↦
    let byte := d.frame.byte block
    let recLen := direntRecLen byte x.1.offset
    if 0 < x.2 ∧ 8 ≤ recLen.toNat then
      (d.behind blocks (d.blockSize.toNat + 1) x.1 recLen.toNat).map fun y ↦
        (y, x.2 - if direntInode byte x.1.offset = 0 then 2 else 1)
    else none

/-- A record whose name is compared ends early enough: the length of the name is in the buffer, and
so are the characters that `strncmp` needs, if it has as many as the name that is looked for. -/
def NameInside (byte : ℕ → Byte) (o : ℕ) : Prop :=
  o + 7 ≤ d.blockSize.toNat ∧ (strnlen d.frame.mem name 255 = direntNameLen byte o →
    ∀ i < (strncmp (fun i ↦ d.frame.mem (name + BitVec.ofNat 64 i)) (direntName byte o)
      (direntNameLen byte o)).2, o + 8 + i < d.blockSize.toNat)

/-- A record that `find_dir` comes to ends early enough.  Its name is compared unless it is passed
over as unused. -/
def FindInside (x : DirPlace × U32) : Prop :=
  ∀ block, blocks x.1.block = some block →
    let byte := d.frame.byte block
    (x.1.block < d.blocks.toNat → x.1.offset + 6 ≤ d.blockSize.toNat) ∧
      (¬ (x.1.block < d.blocks.toNat ∧ 8 ≤ (direntRecLen byte x.1.offset).toNat ∧
        direntInode byte x.1.offset = 0) → d.NameInside name byte x.1.offset)

/-- An entry that is returned ends early enough: its length, its type and all that `strncpy` reads
of the name are in the buffer. -/
def EntryInside (block : List Byte) (o : ℕ) : Prop :=
  let len := direntNameLen (d.frame.byte block) o
  o + 8 + strncpyReads d.frame.entName (d.frame.buffer + BitVec.ofNat 64 (o + 8))
    (if len > 0 then len + 1 else 255) (d.frame.load block) ≤ d.blockSize.toNat

/-- A record that `read_dir` comes to ends early enough.  It returns the last one, or before that
one whose length is not 0 but below 8. -/
def ReadInside (x : DirPlace × ℕ) : Prop :=
  ∀ block, blocks x.1.block = some block →
    let recLen := (direntRecLen (d.frame.byte block) x.1.offset).toNat
    (0 < x.2 → x.1.offset + 6 ≤ d.blockSize.toNat) ∧
      (x.2 = 0 ∨ (0 < recLen ∧ recLen < 8) → d.EntryInside block x.1.offset)

/-! ## A cursor at a record -/

/-- The cursor is at a place, with the blocks loaded up to it. -/
structure Stands (d : DirScan τ) (start : List Byte × τ) (c : DirCursor) (t : τ) (x : DirPlace) :
    Prop where
  currentBlock_eq : c.currentBlock.toNat = x.block
  blockOffset_eq : c.blockOffset.toNat = x.offset
  dirent_eq : c.dirent = x.offset
  offset_le : x.offset ≤ d.blockSize.toNat
  block_lt : x.block = 0 ∨ x.block < d.blocks.toNat
  loaded : d.loaded start x.block = some (c.buffer, t)

section

variable {d} {name} {start : List Byte × τ} {c : DirCursor} {t t' : τ} {x : DirPlace}

theorem Stands.content_eq (h : d.Stands start c t x) : d.content start x.block = some c.buffer := by
  rw [content, h.loaded]
  rfl

theorem recLen_lt (byte : ℕ → Byte) (o : ℕ) : (direntRecLen byte o).toNat < 2 ^ 16 := by
  rw [direntRecLen, BitVec.toNat_setWidth_of_le (by decide)]
  exact BitVec.isLt _

/-- Moving on does not wrap around. -/
theorem Stands.toNat_add (h : d.Stands start c t x) (hbs : d.blockSize.toNat ≤ 2 ^ 31)
    {recLen : U32}
    (hlt : recLen.toNat < 2 ^ 16) : (c.blockOffset + recLen).toNat = x.offset + recLen.toNat := by
  have hle := h.offset_le
  rw [BitVec.toNat_add, h.blockOffset_eq, Nat.mod_eq_of_lt (by omega)]

/-- In the same block. -/
theorem Stands.stay (h : d.Stands start c t x) {offset total : U32} {o : ℕ} (ho : offset.toNat = o)
    (hle : o ≤ d.blockSize.toNat) :
    d.Stands start ⟨c.currentBlock, offset, total, offset.toNat, c.buffer⟩ t ⟨x.block, o⟩ :=
  ⟨h.currentBlock_eq, ho, ho, hle, h.block_lt, h.loaded⟩

/-- The next block is loaded behind this one. -/
theorem Stands.loaded_succ (h : d.Stands start c t x) (hlt : x.block + 1 < 2 ^ 32) :
    c.currentBlock + 1 = BitVec.ofNat 32 (x.block + 1) ∧
      d.loaded start (x.block + 1) = d.fetch (c.currentBlock + 1) (c.buffer, t) := by
  have hnext : c.currentBlock + 1 = BitVec.ofNat 32 (x.block + 1) := by
    rw [← BitVec.toNat_inj, BitVec.toNat_ofNat, Nat.mod_eq_of_lt hlt, BitVec.toNat_add,
      h.currentBlock_eq]
    exact Nat.mod_eq_of_lt hlt
  refine ⟨hnext, ?_⟩
  rw [DirScan.loaded, h.loaded, hnext]
  rfl

/-- Whether there is a next block. -/
theorem Stands.lt_iff (h : d.Stands start c t x) :
    c.currentBlock + 1 < d.blocks ↔ x.block + 1 < d.blocks.toNat := by
  have hblock := h.block_lt
  have hlt := d.blocks.isLt
  have hcur := h.currentBlock_eq
  rw [BitVec.lt_def, BitVec.toNat_add, show (1 : U32).toNat = 1 from rfl]
  omega

/-- **Going on behind the end of a block**, as both loops do it: the directory ends, or the next
block is loaded, which may fail. -/
theorem Stands.behind_cases (h : d.Stands start c t x) {limit recLen : ℕ}
    (hend : ¬ x.offset + recLen < limit) :
    (c.currentBlock + 1 ≥ d.blocks ∧ d.behind (d.content start) limit x recLen = none) ∨
      ¬ c.currentBlock + 1 ≥ d.blocks ∧
        ((∃ t', d.load (c.currentBlock + 1) c.buffer t = (none, t') ∧
            d.behind (d.content start) limit x recLen = none) ∨
          ∃ buffer t', d.load (c.currentBlock + 1) c.buffer t = (some buffer, t') ∧
            d.behind (d.content start) limit x recLen = some ⟨x.block + 1, 0⟩ ∧
            ∀ total, d.Stands start ⟨c.currentBlock + 1, 0, total, 0, buffer⟩ t'
              ⟨x.block + 1, 0⟩) := by
  have hblocks := d.blocks.isLt
  rw [behind, if_neg hend]
  by_cases hlast : c.currentBlock + 1 ≥ d.blocks
  · exact .inl ⟨hlast, if_neg fun hcond ↦ BitVec.not_lt.mpr hlast (h.lt_iff.mpr hcond.1)⟩
  have hlt := h.lt_iff.mp (BitVec.not_le.mp hlast)
  obtain ⟨hnext, hloaded⟩ := h.loaded_succ (by omega)
  refine .inr ⟨hlast, ?_⟩
  cases hread : d.load (c.currentBlock + 1) c.buffer t with
  | mk block t' =>
    have hfetch : d.fetch (c.currentBlock + 1) (c.buffer, t) = block.map (·, t') := by
      rw [fetch, hread]
    rw [hfetch] at hloaded
    have hcontent : d.content start (x.block + 1) = block := by
      rw [content, hloaded]
      cases block <;> rfl
    rw [hcontent]
    cases block with
    | none => exact .inl ⟨t', rfl, if_neg fun hcond ↦ Bool.false_ne_true hcond.2⟩
    | some buffer =>
      refine .inr ⟨buffer, t', rfl, if_pos ⟨hlt, rfl⟩, fun total ↦
        ⟨?_, rfl, rfl, Nat.zero_le _, .inr hlt, hloaded⟩⟩
      change (c.currentBlock + 1).toNat = x.block + 1
      rw [hnext, BitVec.toNat_ofNat, Nat.mod_eq_of_lt (by omega)]

/-! ## `find_dir` -/

/-- The characters that are compared are in the buffer. -/
theorem nameMatches_inside (byte : ℕ → Byte) (o : ℕ) :
    (∀ p ∈ (d.nameMatches name byte o).2, p < d.blockSize.toNat) ↔ d.NameInside name byte o := by
  rw [nameMatches, NameInside]
  split
  · next heq =>
    dsimp only
    rw [List.forall_mem_cons, List.forall_mem_map]
    refine and_congr ⟨fun h ↦ h, fun h ↦ h⟩ ?_
    rw [forall_prop_of_true heq]
    exact forall_congr' fun i ↦ imp_congr_left List.mem_range
  · next hne =>
    rw [List.forall_mem_singleton]
    exact ⟨fun h ↦ ⟨h, fun heq ↦ absurd heq hne⟩, fun h ↦ h.1⟩

/-- Where an iteration reads. -/
theorem findDirStep_inside (c : DirCursor) (t : τ) :
    (∀ p ∈ (d.findDirStep name c t).2, p < d.blockSize.toNat) ↔ (c.currentBlock < d.blocks →
      c.dirent + 6 ≤ d.blockSize.toNat ∧ (¬ direntRecLen (d.frame.byte c.buffer) c.dirent < 8 →
        direntInode (d.frame.byte c.buffer) c.dirent > 0 →
          d.NameInside name (d.frame.byte c.buffer) c.dirent)) := by
  have hrecLen : (∀ p ∈ recLenReads c.dirent, p < d.blockSize.toNat) ↔
      c.dirent + 6 ≤ d.blockSize.toNat := by
    simp only [recLenReads, List.forall_mem_cons, List.not_mem_nil, false_implies, implies_true,
      and_true]
    omega
  have hinode : c.dirent + 6 ≤ d.blockSize.toNat →
      ∀ p ∈ inodeReads c.dirent, p < d.blockSize.toNat := by
    simp only [inodeReads, List.forall_mem_cons, List.not_mem_nil, false_implies, implies_true,
      and_true]
    omega
  rw [findDirStep]
  dsimp only
  by_cases hblock : c.currentBlock < d.blocks
  swap
  · rw [if_pos hblock]
    exact iff_of_true (List.forall_mem_nil _) fun h ↦ absurd h hblock
  rw [if_neg (not_not.mpr hblock), forall_prop_of_true hblock]
  by_cases hshort : direntRecLen (d.frame.byte c.buffer) c.dirent < 8
  · rw [if_pos hshort]
    exact hrecLen.trans ⟨fun h ↦ ⟨h, fun hlarge ↦ absurd hshort hlarge⟩, fun h ↦ h.1⟩
  rw [if_neg hshort, forall_prop_of_true hshort]
  have hreads : ∀ reads : List ℕ, (∀ p ∈ recLenReads c.dirent ++ inodeReads c.dirent ++ reads,
      p < d.blockSize.toNat) ↔
        c.dirent + 6 ≤ d.blockSize.toNat ∧ ∀ p ∈ reads, p < d.blockSize.toNat := fun reads ↦ by
    rw [List.forall_mem_append, List.forall_mem_append, hrecLen]
    exact ⟨fun h ↦ ⟨h.1.1, h.2⟩, fun h ↦ ⟨⟨h.1, hinode h.1⟩, h.2⟩⟩
  by_cases hlive : direntInode (d.frame.byte c.buffer) c.dirent > 0
  · rw [if_pos hlive, forall_prop_of_true hlive, ← nameMatches_inside, ← hreads]
    split <;> rfl
  · rw [if_neg hlive, if_neg Bool.false_ne_true]
    refine (hreads []).trans (and_congr_right fun _ ↦ ?_)
    exact iff_of_true (List.forall_mem_nil _) fun h ↦ absurd h hlive

/-- The loop is not left at a record. -/
def Passed (d : DirScan τ) (name : U64) (byte : ℕ → Byte) (x : DirPlace) : Prop :=
  x.block < d.blocks.toNat ∧ ¬ direntRecLen byte x.offset < 8 ∧
    ¬ d.stopsAt name byte x.offset = true

/-- **An iteration that does not end the loop goes on to the next record of the chain.** -/
theorem findDirStep_chain (name : U64) (hbs : d.blockSize.toNat ≤ 2 ^ 31) {x : DirPlace × U32}
    (h : d.Stands start c t x.1) (htotal : c.totalOffset = x.2) :
    (¬ d.Passed name (d.frame.byte c.buffer) x.1 ∧ (d.findDirStep name c t).1 = .leave c t ∧
        d.findNext (d.content start) name x = none) ∨
      d.Passed name (d.frame.byte c.buffer) x.1 ∧
        ((∃ t', (d.findDirStep name c t).1 = .null t' ∧
            d.findNext (d.content start) name x = none) ∨
          ∃ c' t' x', (d.findDirStep name c t).1 = .next c' t' ∧
            d.findNext (d.content start) name x = some x' ∧ d.Stands start c' t' x'.1 ∧
            c'.totalOffset = x'.2) := by
  have hcontent := h.content_eq
  have hblock : c.currentBlock < d.blocks ↔ x.1.block < d.blocks.toNat := by
    rw [BitVec.lt_def, h.currentBlock_eq]
  set recLen := direntRecLen (d.frame.byte c.buffer) x.1.offset with hrecLen
  have hlarge : 8 ≤ recLen.toNat ↔ ¬ recLen < 8 := by
    rw [BitVec.lt_def, not_lt]
    rfl
  rw [findDirStep_fst, h.dirent_eq, ← hrecLen, findNext, hcontent, Option.bind_some]
  dsimp only
  rw [← hrecLen]
  by_cases hgo : d.Passed name (d.frame.byte c.buffer) x.1
  swap
  · refine .inl ⟨hgo, if_neg fun hcond ↦ hgo ⟨hblock.mp hcond.1, hcond.2⟩,
      if_neg fun hcond ↦ hgo ?_⟩
    exact ⟨hcond.1, hlarge.mp hcond.2.1, hcond.2.2.1⟩
  refine .inr ⟨hgo, ?_⟩
  obtain ⟨hin, hlong, hother⟩ := hgo
  rw [if_pos ⟨hblock.mpr hin, hlong, hother⟩, findDirAdvance, htotal]
  dsimp only
  by_cases hsize : x.2 + recLen > d.iSize
  · rw [if_pos hsize, if_neg fun hcond ↦ hcond.2.2.2 hsize]
    exact .inl ⟨t, rfl, rfl⟩
  have hnext : x.1.block < d.blocks.toNat ∧ 8 ≤ recLen.toNat ∧
      ¬ d.stopsAt name (d.frame.byte c.buffer) x.1.offset = true ∧ ¬ x.2 + recLen > d.iSize :=
    ⟨hin, hlarge.mpr hlong, hother, hsize⟩
  rw [if_neg hsize, if_pos hnext]
  have hoffset := h.toNat_add hbs (recLen_lt (d.frame.byte c.buffer) x.1.offset)
  rw [← hrecLen] at hoffset
  by_cases hstay : x.1.offset + recLen.toNat < d.blockSize.toNat
  · have hfar : ¬ c.blockOffset + recLen ≥ d.blockSize := by
      rw [ge_iff_le, BitVec.le_def, hoffset]
      exact not_le.mpr hstay
    rw [if_neg hfar, behind, if_pos hstay]
    exact .inr ⟨_, _, _, rfl, rfl, h.stay hoffset hstay.le, rfl⟩
  have hend : c.blockOffset + recLen ≥ d.blockSize := by
    rw [ge_iff_le, BitVec.le_def, hoffset]
    exact not_lt.mp hstay
  rw [if_pos hend]
  obtain ⟨hlast, hnone⟩ | ⟨hmore, ⟨t', hload, hnone⟩ | ⟨buffer, t', hload, hsome, hstands⟩⟩ :=
    h.behind_cases hstay
  · rw [if_pos hlast, hnone]
    exact .inl ⟨t, rfl, rfl⟩
  · rw [if_neg hmore, hload, hnone]
    exact .inl ⟨t', rfl, rfl⟩
  · rw [if_neg hmore, hload, hsome]
    exact .inr ⟨_, _, _, rfl, rfl, hstands _, rfl⟩

/-- What a record needs, as the reads of an iteration at it and of the test behind the loop. -/
theorem findInside_iff (name : U64) {x : DirPlace × U32} (h : d.Stands start c t x.1) :
    d.FindInside (d.content start) name x ↔
      (∀ p ∈ (d.findDirStep name c t).2, p < d.blockSize.toNat) ∧
        (¬ d.Passed name (d.frame.byte c.buffer) x.1 →
          d.NameInside name (d.frame.byte c.buffer) c.dirent) := by
  have hblock : c.currentBlock < d.blocks ↔ x.1.block < d.blocks.toNat := by
    rw [BitVec.lt_def, h.currentBlock_eq]
  have hlarge : 8 ≤ (direntRecLen (d.frame.byte c.buffer) x.1.offset).toNat ↔
      ¬ direntRecLen (d.frame.byte c.buffer) x.1.offset < 8 := by
    rw [BitVec.lt_def, not_lt]
    rfl
  have hlive : direntInode (d.frame.byte c.buffer) x.1.offset > 0 ↔
      ¬ direntInode (d.frame.byte c.buffer) x.1.offset = 0 := by
    bv_omega
  have hstops : d.stopsAt name (d.frame.byte c.buffer) x.1.offset = true →
      ¬ direntInode (d.frame.byte c.buffer) x.1.offset = 0 := fun hstop ↦ by
    rw [stopsAt, Bool.and_eq_true, decide_eq_true_eq] at hstop
    exact hlive.mp hstop.1
  rw [findDirStep_inside, h.dirent_eq, hblock, hlive]
  constructor
  · intro hall
    obtain ⟨hheader, hname⟩ := hall c.buffer h.content_eq
    refine ⟨fun hin ↦ ⟨hheader hin, fun _ hinode ↦ hname fun hunused ↦ hinode hunused.2.2⟩,
      fun hleft ↦ hname fun hunused ↦ hleft ?_⟩
    exact ⟨hunused.1, hlarge.mp hunused.2.1, fun hstop ↦ hstops hstop hunused.2.2⟩
  · rintro ⟨hstep, hleft⟩ block hblock'
    obtain rfl := Option.some.inj (h.content_eq.symm.trans hblock')
    refine ⟨fun hin ↦ (hstep hin).1, fun hused ↦ ?_⟩
    by_cases hgo : d.Passed name (d.frame.byte c.buffer) x.1
    · refine (hstep hgo.1).2 hgo.2.1 fun hunused ↦ hused ?_
      exact ⟨hgo.1, hlarge.mpr hgo.2.1, hunused⟩
    · exact hleft hgo

/-- **The loop reads the buffer**, and so does the test behind it, if and only if every record from
here on ends early enough. -/
theorem findDirLoop_inside (hbs : d.blockSize.toNat ≤ 2 ^ 31) {fuel : ℕ} {x : DirPlace × U32}
    (h : d.Stands start c t x.1) (htotal : c.totalOffset = x.2) {r : Option DirCursor}
    {reads : List ℕ} (hloop : d.findDirLoop name fuel c t = some (r, t', reads)) :
    ((∀ p ∈ reads, p < d.blockSize.toNat) ∧
        ∀ c', r = some c' → d.NameInside name (d.frame.byte c'.buffer) c'.dirent) ↔
      Along (d.findNext (d.content start) name) (d.FindInside (d.content start) name) x := by
  induction fuel generalizing c t x reads with
  | zero => cases hloop
  | succ fuel ih =>
    have hinside := findInside_iff name h
    rw [findDirLoop, show d.findDirStep name c t =
      ((d.findDirStep name c t).1, (d.findDirStep name c t).2) from rfl] at hloop
    obtain ⟨hleft, hstep, hnext⟩ | ⟨hgo,
      ⟨t'', hstep, hnext⟩ | ⟨c', t'', x', hstep, hnext, h', htotal'⟩⟩ :=
      findDirStep_chain name hbs h htotal
    · rw [hstep] at hloop
      cases hloop
      rw [along_last hnext, hinside]
      refine and_congr_right fun _ ↦ ⟨fun hall _ ↦ hall c rfl, fun hname c' hc' ↦ ?_⟩
      cases hc'
      exact hname hleft
    · rw [hstep] at hloop
      cases hloop
      rw [along_last hnext, hinside]
      refine and_congr_right fun _ ↦ ⟨fun _ hleft ↦ absurd hgo hleft, fun _ c' hc' ↦ ?_⟩
      cases hc'
    · rw [hstep] at hloop
      dsimp only at hloop
      obtain ⟨⟨r', t₁, reads'⟩, hrest, heq⟩ := Option.map_eq_some_iff.mp hloop
      cases heq
      rw [along_next hnext, hinside, ← ih h' htotal' hrest, List.forall_mem_append]
      constructor
      · rintro ⟨⟨hfirst, hrest⟩, hname⟩
        exact ⟨⟨hfirst, fun hleft ↦ absurd hgo hleft⟩, hrest, hname⟩
      · rintro ⟨⟨hfirst, -⟩, hrest, hname⟩
        exact ⟨⟨hfirst, hrest⟩, hname⟩

/-- A chain that begins in a block that is not loaded is empty. -/
theorem content_zero {buffer : List Byte} {t t' : τ} {block : Option (List Byte)}
    (hread : d.load 0 buffer t = (block, t')) : d.content (buffer, t) 0 = block := by
  rw [content, DirScan.loaded, fetch, hread]
  cases block <;> rfl

/-- The cursor with which a loop begins. -/
theorem stands_start {buffer block : List Byte} {t t' : τ}
    (hread : d.load 0 buffer t = (some block, t')) :
    d.Stands (buffer, t) (.start block) t' ⟨0, 0⟩ := by
  refine ⟨rfl, rfl, rfl, Nat.zero_le _, .inl rfl, ?_⟩
  rw [DirScan.loaded, fetch, hread]
  rfl

/-- What is read behind the loop: the name, and the inode number if it is the right one. -/
theorem findEntry_reads (inodeCount : U32) {buffer block : List Byte} {t₁ t₂ : τ} {reads : List ℕ}
    (hload : d.load 0 buffer t = (some block, t₁))
    (hloop : d.findDirLoop name d.findDirFuel (.start block) t₁ = some (some c, t₂, reads)) :
    ∃ r more, d.findEntry name inodeCount buffer t = some (r, t₂,
        reads ++ (d.nameMatches name (d.frame.byte c.buffer) c.dirent).2 ++ more) ∧
      (more = [] ∨ more = inodeReads c.dirent) := by
  rw [findEntry, hload]
  dsimp only
  rw [hloop]
  dsimp only
  split
  · refine ⟨none, [], ?_, .inl rfl⟩
    rw [List.append_nil]
  · split
    · exact ⟨none, _, rfl, .inr rfl⟩
    · exact ⟨some _, _, rfl, .inr rfl⟩

/-- **Where `find_dir` reads.** -/
theorem findEntry_inside (hbs : d.blockSize.toNat ≤ 2 ^ 31) (hpos : 0 < d.blockSize.toNat)
    (name : U64) (inodeCount : U32) (buffer : List Byte) (t : τ) :
    (∃ r, d.findEntry name inodeCount buffer t = some r ∧ ∀ p ∈ r.2.2, p < d.blockSize.toNat) ↔
      Along (d.findNext (d.content (buffer, t)) name) (d.FindInside (d.content (buffer, t)) name)
        (⟨0, 0⟩, 0) := by
  cases hread : d.load 0 buffer t with
  | mk block t' =>
  have hcontent := content_zero hread
  cases block with
  | none =>
    have hlast : d.findNext (d.content (buffer, t)) name (⟨0, 0⟩, 0) = none := by
      rw [findNext, hcontent]
      rfl
    rw [along_last hlast, findEntry, hread]
    refine iff_of_true ⟨_, rfl, List.forall_mem_nil _⟩ fun block hblock ↦ ?_
    rw [hcontent] at hblock
    cases hblock
  | some block =>
    obtain ⟨⟨r, t'', reads⟩, hloop⟩ := findDirLoop_start hbs hpos name block t'
    rw [← findDirLoop_inside hbs (stands_start hread) rfl hloop]
    cases r with
    | none =>
      rw [findEntry, hread]
      dsimp only
      rw [hloop]
      constructor
      · rintro ⟨r, hr, hreads⟩
        cases hr
        refine ⟨hreads, fun c hc ↦ ?_⟩
        cases hc
      · exact fun h ↦ ⟨_, rfl, h.1⟩
    | some c =>
      obtain ⟨r, more, hentry, hmore⟩ := findEntry_reads inodeCount hread hloop
      have hinode : d.NameInside name (d.frame.byte c.buffer) c.dirent →
          ∀ p ∈ more, p < d.blockSize.toNat := fun hname ↦ by
        have hheader := hname.1
        rcases hmore with rfl | rfl
        · exact List.forall_mem_nil _
        · simp only [inodeReads, List.forall_mem_cons, List.not_mem_nil, false_implies,
            implies_true, and_true]
          omega
      have hreads : (∀ p ∈ reads ++ (d.nameMatches name (d.frame.byte c.buffer) c.dirent).2 ++ more,
          p < d.blockSize.toNat) ↔ (∀ p ∈ reads, p < d.blockSize.toNat) ∧
            d.NameInside name (d.frame.byte c.buffer) c.dirent := by
        rw [List.forall_mem_append, List.forall_mem_append, nameMatches_inside]
        exact ⟨fun h ↦ h.1, fun h ↦ ⟨h, hinode h.2⟩⟩
      rw [hentry]
      constructor
      · rintro ⟨r', hr', hall⟩
        cases hr'
        obtain ⟨hloop, hname⟩ := hreads.mp hall
        exact ⟨hloop, fun c' hc' ↦ Option.some.inj hc' ▸ hname⟩
      · exact fun h ↦ ⟨_, rfl, hreads.mpr ⟨h.1, h.2 c rfl⟩⟩

/-! ## `read_dir` -/

/-- Where an iteration reads. -/
theorem readDirStep_inside (index : U32) (c : DirCursor) (t : τ) :
    (∀ p ∈ (d.readDirStep index c t).2, p < d.blockSize.toNat) ↔
      c.dirent + 6 ≤ d.blockSize.toNat := by
  have hrecLen : (∀ p ∈ recLenReads c.dirent, p < d.blockSize.toNat) ↔
      c.dirent + 6 ≤ d.blockSize.toNat := by
    simp only [recLenReads, List.forall_mem_cons, List.not_mem_nil, false_implies, implies_true,
      and_true]
    omega
  have hboth : (∀ p ∈ recLenReads c.dirent ++ inodeReads c.dirent, p < d.blockSize.toNat) ↔
      c.dirent + 6 ≤ d.blockSize.toNat := by
    rw [List.forall_mem_append, hrecLen]
    refine ⟨fun h ↦ h.1, fun h ↦ ⟨h, ?_⟩⟩
    simp only [inodeReads, List.forall_mem_cons, List.not_mem_nil, false_implies, implies_true,
      and_true]
    omega
  rw [readDirStep]
  dsimp only
  split
  · exact hrecLen
  split
  · exact hrecLen
  split
  swap
  · exact hboth
  split
  · exact hboth
  split <;> exact hboth

/-- **An iteration that does not end the loop goes on to the next record of the chain.** -/
theorem readDirStep_chain (hbs : d.blockSize.toNat ≤ 2 ^ 31) {x : DirPlace × ℕ}
    (h : d.Stands start c t x.1) {i index : U32} (hi : i < index)
    (hleft : index.toNat - i.toNat = x.2) :
    let recLen := (direntRecLen (d.frame.byte c.buffer) x.1.offset).toNat
    (0 < recLen ∧ recLen < 8 ∧ d.readNext (d.content start) x = none ∧
        ∃ c', (d.readDirStep index c t).1 = .done (.entry c') t ∧ c'.dirent = c.dirent ∧
          c'.buffer = c.buffer) ∨
      ¬ (0 < recLen ∧ recLen < 8) ∧
        ((∃ code t', (d.readDirStep index c t).1 = .done (.ret code) t' ∧
            d.readNext (d.content start) x = none) ∨
          ∃ index' c' t' x', (d.readDirStep index c t).1 = .next index' c' t' ∧
            d.readNext (d.content start) x = some x' ∧ d.Stands start c' t' x'.1 ∧
            index'.toNat - (i + 1).toNat = x'.2 ∧ x'.2 < x.2) := by
  intro recLen
  set n := direntRecLen (d.frame.byte c.buffer) x.1.offset with hn
  have hpos : 0 < x.2 := by
    have := BitVec.lt_def.mp hi
    omega
  have hzero : n = 0 ↔ recLen = 0 := BitVec.toNat_inj.symm
  have hshort : n < 8 ↔ recLen < 8 := BitVec.lt_def
  have hindex : (if direntInode (d.frame.byte c.buffer) x.1.offset = 0 then index - 1
      else index).toNat - (i + 1).toNat =
        x.2 - if direntInode (d.frame.byte c.buffer) x.1.offset = 0 then 2 else 1 := by
    have hlt := BitVec.lt_def.mp hi
    have hsucc : (i + 1).toNat = i.toNat + 1 := by bv_omega
    have hpred : (index - 1).toNat = index.toNat - 1 := by bv_omega
    split <;> omega
  have hless : (x.2 - if direntInode (d.frame.byte c.buffer) x.1.offset = 0 then 2 else 1) <
    x.2 := by
    split <;> omega
  rw [readDirStep, h.dirent_eq, readNext, h.content_eq, Option.bind_some]
  dsimp only
  rw [← hn]
  by_cases hnull : n = 0
  · have heq := hzero.mp hnull
    have hnone : ¬ (0 < x.2 ∧ 8 ≤ recLen) := by omega
    rw [if_pos hnull, if_neg hnone]
    exact .inr ⟨by omega, .inl ⟨0, t, rfl, rfl⟩⟩
  have hne : recLen ≠ 0 := fun heq ↦ hnull (hzero.mpr heq)
  rw [if_neg hnull]
  by_cases hbad : n < 8
  · have hlt := hshort.mp hbad
    have hnone : ¬ (0 < x.2 ∧ 8 ≤ recLen) := by omega
    rw [if_pos hbad, if_neg hnone]
    exact .inl ⟨Nat.pos_of_ne_zero hne, hlt, rfl, _, rfl, rfl, rfl⟩
  have hge : 8 ≤ recLen := not_lt.mp fun hlt ↦ hbad (hshort.mpr hlt)
  have hgo : 0 < x.2 ∧ 8 ≤ recLen := ⟨hpos, hge⟩
  rw [if_neg hbad, if_pos hgo]
  refine .inr ⟨by omega, ?_⟩
  have hoffset : (c.blockOffset + n).toNat = x.1.offset + recLen :=
    h.toNat_add hbs (recLen_lt (d.frame.byte c.buffer) x.1.offset)
  by_cases hstay : x.1.offset + recLen < d.blockSize.toNat + 1
  · have hfar : ¬ c.blockOffset + n > d.blockSize := by
      rw [gt_iff_lt, BitVec.lt_def, hoffset]
      omega
    rw [if_neg hfar, behind, if_pos hstay]
    exact .inr ⟨_, _, _, _, rfl, rfl, h.stay hoffset (Nat.lt_succ_iff.mp hstay), hindex, hless⟩
  have hend : c.blockOffset + n > d.blockSize := by
    rw [gt_iff_lt, BitVec.lt_def, hoffset]
    omega
  rw [if_pos hend]
  obtain ⟨hlast, hnone⟩ | ⟨hmore, ⟨t', hload, hnone⟩ | ⟨buffer, t', hload, hsome, hstands⟩⟩ :=
    h.behind_cases hstay
  · rw [if_pos hlast, hnone]
    exact .inl ⟨0, t, rfl, rfl⟩
  · rw [if_neg hmore, hload, hnone]
    exact .inl ⟨-1, t', rfl, rfl⟩
  · rw [if_neg hmore, hload, hsome]
    exact .inr ⟨_, _, _, _, rfl, rfl, hstands _, hindex, hless⟩

/-- What a record needs that is not the last one. -/
theorem readInside_iff {x : DirPlace × ℕ} (h : d.Stands start c t x.1) (hpos : 0 < x.2)
    (index : U32) : d.ReadInside (d.content start) x ↔
      (∀ p ∈ (d.readDirStep index c t).2, p < d.blockSize.toNat) ∧
        (0 < (direntRecLen (d.frame.byte c.buffer) x.1.offset).toNat ∧
          (direntRecLen (d.frame.byte c.buffer) x.1.offset).toNat < 8 →
            d.EntryInside c.buffer c.dirent) := by
  rw [readDirStep_inside, h.dirent_eq]
  constructor
  · intro hall
    obtain ⟨hheader, hentry⟩ := hall c.buffer h.content_eq
    exact ⟨hheader hpos, fun hbad ↦ hentry (.inr hbad)⟩
  · rintro ⟨hheader, hentry⟩ block hblock
    obtain rfl := Option.some.inj (h.content_eq.symm.trans hblock)
    refine ⟨fun _ ↦ hheader, fun hreturned ↦ ?_⟩
    exact hentry (hreturned.resolve_left hpos.ne')

/-- And one that is. -/
theorem readInside_last {x : DirPlace × ℕ} (h : d.Stands start c t x.1) (hzero : x.2 = 0) :
    d.readNext (d.content start) x = none ∧
      (d.ReadInside (d.content start) x ↔ d.EntryInside c.buffer c.dirent) := by
  constructor
  · rw [readNext, h.content_eq, Option.bind_some, if_neg]
    omega
  · rw [h.dirent_eq]
    constructor
    · exact fun hall ↦ (hall c.buffer h.content_eq).2 (.inl hzero)
    · rintro hentry block hblock
      obtain rfl := Option.some.inj (h.content_eq.symm.trans hblock)
      exact ⟨fun hpos ↦ absurd hzero hpos.ne', fun _ ↦ hentry⟩

/-- **The loop of `read_dir` ends**, after as many iterations as there are records to pass over. -/
theorem readDirLoop_isSome (hbs : d.blockSize.toNat ≤ 2 ^ 31) {fuel : ℕ} {x : DirPlace × ℕ}
    (h : d.Stands start c t x.1) {i index : U32} (hleft : index.toNat - i.toNat = x.2)
    (hfuel : x.2 < fuel) : ∃ r, d.readDirLoop fuel i index c t = some r := by
  induction fuel generalizing c t x i index with
  | zero => exact absurd hfuel (Nat.not_lt_zero _)
  | succ fuel ih =>
    rw [readDirLoop]
    by_cases hi : i < index
    swap
    · rw [if_pos hi]
      exact ⟨_, rfl⟩
    rw [if_neg (not_not.mpr hi), show d.readDirStep index c t =
      ((d.readDirStep index c t).1, (d.readDirStep index c t).2) from rfl]
    obtain ⟨-, -, -, c', hstep, -⟩ | ⟨-, ⟨code, t', hstep, -⟩ |
      ⟨index', c', t', x', hstep, -, h', hleft', hless⟩⟩ := readDirStep_chain hbs h hi hleft
    · rw [hstep]
      exact ⟨_, rfl⟩
    · rw [hstep]
      exact ⟨_, rfl⟩
    · rw [hstep]
      obtain ⟨r, hr⟩ := ih h' hleft' (by omega)
      dsimp only
      rw [hr]
      exact ⟨_, rfl⟩

/-- **The loop reads the buffer**, and so does the copy of the entry, if and only if every record
from here on ends early enough. -/
theorem readDirLoop_inside (hbs : d.blockSize.toNat ≤ 2 ^ 31) {fuel : ℕ} {x : DirPlace × ℕ}
    (h : d.Stands start c t x.1) {i index : U32} (hleft : index.toNat - i.toNat = x.2)
    {r : ReadDirEnd} {reads : List ℕ}
    (hloop : d.readDirLoop fuel i index c t = some (r, t', reads)) :
    ((∀ p ∈ reads, p < d.blockSize.toNat) ∧
        ∀ c', r = .entry c' → d.EntryInside c'.buffer c'.dirent) ↔
      Along (d.readNext (d.content start)) (d.ReadInside (d.content start)) x := by
  induction fuel generalizing c t x i index reads with
  | zero => cases hloop
  | succ fuel ih =>
    rw [readDirLoop] at hloop
    by_cases hi : i < index
    swap
    · rw [if_pos hi] at hloop
      cases hloop
      have hzero : x.2 = 0 := by
        have := BitVec.le_def.mp (BitVec.not_lt.mp hi)
        omega
      obtain ⟨hnext, hinside⟩ := readInside_last h hzero
      rw [along_last hnext, hinside]
      refine ⟨fun hall ↦ hall.2 c rfl, fun hentry ↦ ⟨List.forall_mem_nil _, fun c' hc' ↦ ?_⟩⟩
      cases hc'
      exact hentry
    have hpos : 0 < x.2 := by
      have := BitVec.lt_def.mp hi
      omega
    have hinside := readInside_iff h hpos index
    rw [if_neg (not_not.mpr hi), show d.readDirStep index c t =
      ((d.readDirStep index c t).1, (d.readDirStep index c t).2) from rfl] at hloop
    obtain ⟨hnull, hbad, hnext, c', hstep, hdirent, hbuffer⟩ | ⟨hgood, ⟨code, t'', hstep, hnext⟩ |
      ⟨index', c', t'', x', hstep, hnext, h', hleft', -⟩⟩ := readDirStep_chain hbs h hi hleft
    · rw [hstep] at hloop
      cases hloop
      rw [along_last hnext, hinside]
      refine and_congr_right fun _ ↦ ⟨fun hall _ ↦ ?_, fun hentry c'' hc'' ↦ ?_⟩
      · rw [← hdirent, ← hbuffer]
        exact hall c' rfl
      · cases hc''
        rw [hdirent, hbuffer]
        exact hentry ⟨hnull, hbad⟩
    · rw [hstep] at hloop
      cases hloop
      rw [along_last hnext, hinside]
      refine and_congr_right fun _ ↦ ⟨fun _ hbad ↦ absurd hbad hgood, fun _ c'' hc'' ↦ ?_⟩
      cases hc''
    · rw [hstep] at hloop
      dsimp only at hloop
      obtain ⟨⟨r', t₁, reads'⟩, hrest, heq⟩ := Option.map_eq_some_iff.mp hloop
      cases heq
      rw [along_next hnext, hinside, ← ih h' hleft' hrest, List.forall_mem_append]
      constructor
      · rintro ⟨⟨hfirst, hrest⟩, hentry⟩
        exact ⟨⟨hfirst, fun hbad ↦ absurd hbad hgood⟩, hrest, hentry⟩
      · rintro ⟨⟨hfirst, -⟩, hrest, hentry⟩
        exact ⟨⟨hfirst, hrest⟩, hentry⟩

/-- **Where `read_dir` reads.** -/
theorem readEntry_inside (hbs : d.blockSize.toNat ≤ 2 ^ 31) (index : U32) (buffer : List Byte)
    (t : τ) :
    (∃ r, d.readEntry index buffer t = some r ∧ ∀ p ∈ r.reads, p < d.blockSize.toNat) ↔
      Along (d.readNext (d.content (buffer, t))) (d.ReadInside (d.content (buffer, t)))
        (⟨0, 0⟩, index.toNat) := by
  cases hread : d.load 0 buffer t with
  | mk block t' =>
  have hcontent := content_zero hread
  cases block with
  | none =>
    have hlast : d.readNext (d.content (buffer, t)) (⟨0, 0⟩, index.toNat) = none := by
      rw [readNext, hcontent]
      rfl
    rw [along_last hlast, readEntry, hread]
    refine iff_of_true ⟨_, rfl, List.forall_mem_nil _⟩ fun block hblock ↦ ?_
    rw [hcontent] at hblock
    cases hblock
  | some block =>
    have hleft : index.toNat - (0 : U32).toNat = index.toNat := Nat.sub_zero _
    obtain ⟨⟨r, t'', reads⟩, hloop⟩ := readDirLoop_isSome hbs (x := (⟨0, 0⟩, index.toNat))
      (stands_start hread) hleft (Nat.lt_succ_self _)
    rw [← readDirLoop_inside hbs (x := (⟨0, 0⟩, index.toNat)) (stands_start hread) hleft hloop,
      readEntry, hread]
    dsimp only
    rw [hloop]
    cases r with
    | ret code =>
      constructor
      · rintro ⟨r, hr, hreads⟩
        cases hr
        refine ⟨hreads, fun c hc ↦ ?_⟩
        cases hc
      · exact fun h ↦ ⟨_, rfl, h.1⟩
    | entry c =>
      dsimp only
      have hreads : ∀ n, (∀ p ∈ reads ++ (c.dirent + 6) :: (List.range n).map (c.dirent + 8 + ·) ++
          [c.dirent + 7], p < d.blockSize.toNat) ↔ (∀ p ∈ reads, p < d.blockSize.toNat) ∧
            c.dirent + 8 + n ≤ d.blockSize.toNat := fun n ↦ by
        rw [List.forall_mem_append, List.forall_mem_append, List.forall_mem_cons,
          List.forall_mem_map, List.forall_mem_singleton]
        constructor
        · rintro ⟨⟨hloop, hlen, hname⟩, htype⟩
          refine ⟨hloop, ?_⟩
          cases n with
          | zero => omega
          | succ n => exact hname n (List.mem_range.mpr (Nat.lt_succ_self n))
        · rintro ⟨hloop, hend⟩
          refine ⟨⟨hloop, by omega, fun i hi ↦ ?_⟩, by omega⟩
          have := List.mem_range.mp hi
          omega
      constructor
      · rintro ⟨r, hr, hall⟩
        cases hr
        obtain ⟨hloop, hend⟩ := (hreads _).mp hall
        exact ⟨hloop, fun c' hc' ↦ by cases hc'; exact hend⟩
      · exact fun h ↦ ⟨_, rfl, (hreads _).mpr ⟨h.1, h.2 c rfl⟩⟩

end

end DirScan

/-! ## The two functions -/

namespace Ext2Volume

variable (v : Ext2Volume σ) (node : Ext2Dir) (frame : Frame) (buffer : List Byte)
  (s : VolumeState σ)

/-- A call of `find_dir` ends, and what it reads through `ext2_dirent` is in the buffer. -/
def FindDirInside (name : U64) (inodeCount : U32) : Prop :=
  ∃ r, v.findDirEntry node name inodeCount frame buffer s = some r ∧
    ∀ p ∈ r.2.2, p < v.blockSize.toNat

/-- A call of `read_dir` does. -/
def ReadDirInside (enotdir : ℕ) (index : U32) : Prop :=
  ∃ r, v.readDir enotdir node index frame buffer s = some r ∧ ∀ p ∈ r.reads, p < v.blockSize.toNat

/-- **When the two functions read only their buffer**: when every record they come to ends early
enough. -/
theorem dirReadsInside_iff (name : U64) (inodeCount : U32) (enotdir : ℕ) (index : U32) :
    (v.FindDirInside node frame buffer s name inodeCount ↔
      (node.isDir = true → node.inode ≠ 0 →
        let d := v.dirScan node true frame
        Along (d.findNext (d.content (buffer, s)) name) (d.FindInside (d.content (buffer, s)) name)
          (⟨0, 0⟩, 0))) ∧
    (v.ReadDirInside node frame buffer s enotdir index ↔
      (node.isDir = true → node.inode ≠ 0 →
        let d := v.dirScan node false frame
        Along (d.readNext (d.content (buffer, s))) (d.ReadInside (d.content (buffer, s)))
          (⟨0, 0⟩, index.toNat))) := by
  rw [FindDirInside, findDirEntry, ReadDirInside, readDir]
  by_cases hdir : node.isDir = true
  swap
  · rw [Bool.eq_false_of_not_eq_true hdir]
    exact ⟨iff_of_true ⟨_, rfl, List.forall_mem_nil _⟩ fun h ↦ absurd h Bool.false_ne_true,
      iff_of_true ⟨_, rfl, List.forall_mem_nil _⟩ fun h ↦ absurd h Bool.false_ne_true⟩
  rw [hdir, if_neg (show ¬ (!true) = true from Bool.false_ne_true),
    if_neg (show ¬ (!true) = true from Bool.false_ne_true), forall_prop_of_true rfl,
    forall_prop_of_true rfl]
  by_cases hinode : node.inode = 0
  · rw [if_pos hinode, if_pos hinode]
    exact ⟨iff_of_true ⟨_, rfl, List.forall_mem_nil _⟩ fun hne ↦ absurd hinode hne,
      iff_of_true ⟨_, rfl, List.forall_mem_nil _⟩ fun hne ↦ absurd hinode hne⟩
  rw [if_neg hinode, if_neg hinode, forall_prop_of_true hinode, forall_prop_of_true hinode]
  exact ⟨DirScan.findEntry_inside v.blockSize_le v.blockSize_pos name inodeCount buffer s,
    DirScan.readEntry_inside v.blockSize_le index buffer s⟩

/-! ### A record that ends just before the block does -/

/-- A disk with a directory in its second kilobyte whose first record is unused and has
1020 bytes. -/
def shortImage : DiskImage where
  bytes p := if p = 1028 then 0xfc else if p = 1029 then 3 else 0
  fails _ := false

/-- A volume of forty such blocks. -/
def shortVolume : Ext2Volume Unit := shortImage.toVolume 40 0 zero_le_logBlockSize

/-- What is known of the first record, in any buffer. -/
theorem shortVolume_content (cache : Bool) (frame : Frame) {buffer : List Byte}
    (hbuffer : buffer.length = shortVolume.blockSize.toNat) :
    let d := shortVolume.dirScan dotDir cache frame
    ∃ block, d.content (buffer, DiskImage.mounted) 0 = some block ∧
      direntInode (frame.byte block) 0 = 0 ∧ direntRecLen (frame.byte block) 0 = 1020 := by
  intro d
  have hv : shortVolume.Readable := shortImage.readable_toVolume 40 (by decide) fun _ ↦ rfl
  have hbs : shortVolume.blockSize.toNat = 1024 := shortVolume.toNat_blockSize
  have hload := ((hv.loads dotDir cache frame).load 0 buffer DiskImage.mounted
    (shortVolume.coherent_new rfl) hbuffer).1
  have hbyte : ∀ p < 1024, frame.byte (shortVolume.blockBytes 1) p =
      shortImage.bytes (1024 + p) := fun p hp ↦ by
    rw [show 1024 + p = (1 : U32).toNat * shortVolume.blockSize.toNat + p by rw [hbs]; rfl]
    refine shortImage.byte_blockBytes 40 (Nat.zero_le 21) frame ?_ (hbs ▸ hp)
    change (1 + 1) * shortVolume.blockSize.toNat ≤ 2 ^ 41
    omega
  have hblock : shortVolume.dirBlock dotDir 0 = some (shortVolume.blockBytes 1) := by
    have hfound : shortVolume.foundOnDisk dotDir.toExt2File 0 = 1 := by
      rw [foundOnDisk, if_pos (by decide)]
      rfl
    rw [dirBlock, hfound, if_neg]
    · rfl
    · exact (by decide : ¬ ((1 : ℤ) < 1 ∨ BitVec.ofInt 32 1 > 40))
  refine ⟨shortVolume.blockBytes 1, (DirScan.content_zero (Prod.ext rfl rfl)).trans ?_, ?_, ?_⟩
  · exact hload.trans hblock
  · rw [direntInode, le32, hbyte 0 (by decide), hbyte 1 (by decide), hbyte 2 (by decide),
      hbyte 3 (by decide)]
    decide
  · rw [direntRecLen, le16, hbyte 4 (by decide), hbyte 5 (by decide)]
    decide

/-- `find_dir` comes to a record whose length is behind the buffer. -/
theorem not_findDirInside (frame : Frame) {buffer : List Byte}
    (hbuffer : buffer.length = shortVolume.blockSize.toNat) (name : U64) (inodeCount : U32) :
    ¬ shortVolume.FindDirInside dotDir frame buffer DiskImage.mounted name inodeCount := by
  intro hinside
  have hbs : shortVolume.blockSize.toNat = 1024 := shortVolume.toNat_blockSize
  obtain ⟨block, hcontent, hinode, hrecLen⟩ := shortVolume_content true frame hbuffer
  set d := shortVolume.dirScan dotDir true frame
  have hall : Along _ _ _ := (DirScan.findEntry_inside (d := d) shortVolume.blockSize_le
    shortVolume.blockSize_pos name inodeCount buffer DiskImage.mounted).mp hinside
  have hblocks : d.blocks.toNat = 1 :=
    (by decide : (dotDir.iBlocks / shortVolume.sectorsPerBlock).toNat = 1)
  have hnext : d.findNext (d.content (buffer, DiskImage.mounted)) name (⟨0, 0⟩, 0) =
      some (⟨0, 1020⟩, 1020) := by
    have hother : ¬ d.stopsAt name (d.frame.byte block) 0 = true := by
      rw [DirScan.stopsAt, show direntInode (d.frame.byte block) 0 = 0 from hinode]
      exact Bool.false_ne_true
    rw [DirScan.findNext, hcontent, Option.bind_some]
    dsimp only
    rw [show direntRecLen (d.frame.byte block) 0 = 1020 from hrecLen, if_pos,
      DirScan.behind, if_pos]
    · rfl
    · change 0 + 1020 < shortVolume.blockSize.toNat
      omega
    · exact ⟨by omega, by decide, hother, (by decide : ¬ (0 : U32) + 1020 > 1024)⟩
  have hheader := (hall _ (.single hnext) block hcontent).1 (by rw [hblocks]; exact Nat.one_pos)
  change 1020 + 6 ≤ shortVolume.blockSize.toNat at hheader
  omega

/-- And `read_dir` returns one. -/
theorem not_readDirInside (frame : Frame) {buffer : List Byte}
    (hbuffer : buffer.length = shortVolume.blockSize.toNat) (enotdir : ℕ) :
    ¬ shortVolume.ReadDirInside dotDir frame buffer DiskImage.mounted enotdir 1 := by
  intro hinside
  have hbs : shortVolume.blockSize.toNat = 1024 := shortVolume.toNat_blockSize
  obtain ⟨block, hcontent, hinode, hrecLen⟩ := shortVolume_content false frame hbuffer
  set d := shortVolume.dirScan dotDir false frame
  have hall : Along _ _ _ := (DirScan.readEntry_inside (d := d) shortVolume.blockSize_le 1 buffer
    DiskImage.mounted).mp hinside
  have hnext : d.readNext (d.content (buffer, DiskImage.mounted)) (⟨0, 0⟩, 1) =
      some (⟨0, 1020⟩, 0) := by
    have hgo : 0 < 1 ∧ 8 ≤ (1020 : U32).toNat := by decide
    rw [DirScan.readNext, hcontent, Option.bind_some]
    dsimp only
    rw [show direntRecLen (d.frame.byte block) 0 = 1020 from hrecLen, if_pos hgo,
      if_pos (show direntInode (d.frame.byte block) 0 = 0 from hinode), DirScan.behind, if_pos]
    · rfl
    · change 0 + 1020 < shortVolume.blockSize.toNat + 1
      omega
  have hentry : _ ≤ shortVolume.blockSize.toNat :=
    (hall _ (.single hnext) block hcontent).2 (.inl rfl)
  dsimp only at hentry
  omega

/-- On a volume that can be read, and whatever the caches hold. -/
theorem not_dirReadsInside :
    (¬ ∀ (v : Ext2Volume Unit) (node : Ext2Dir) (frame : Frame) (buffer : List Byte)
        (s : VolumeState Unit) (name : U64) (inodeCount : U32), v.Readable → v.Coherent s →
          buffer.length = v.blockSize.toNat →
            v.FindDirInside node frame buffer s name inodeCount) ∧
      ¬ ∀ (v : Ext2Volume Unit) (node : Ext2Dir) (frame : Frame) (buffer : List Byte)
        (s : VolumeState Unit) (enotdir : ℕ) (index : U32), v.Readable → v.Coherent s →
          buffer.length = v.blockSize.toNat →
            v.ReadDirInside node frame buffer s enotdir index := by
  have hv : shortVolume.Readable := shortImage.readable_toVolume 40 (by decide) fun _ ↦ rfl
  have hs : shortVolume.Coherent DiskImage.mounted := shortVolume.coherent_new rfl
  have hbuffer : (List.replicate 1024 (0 : Byte)).length = shortVolume.blockSize.toNat := by
    rw [shortVolume.toNat_blockSize]
    exact List.length_replicate
  refine ⟨fun h ↦ ?_, fun h ↦ ?_⟩
  · exact not_findDirInside ⟨fun _ ↦ 0, 0x8000, 0x9000⟩ hbuffer 0x2000 16
      (h shortVolume dotDir _ _ _ _ _ hv hs hbuffer)
  · exact not_readDirInside ⟨fun _ ↦ 0, 0x8000, 0x9000⟩ hbuffer 20
      (h shortVolume dotDir _ _ _ _ _ hv hs hbuffer)

end Ext2Volume

end Borrrdex
