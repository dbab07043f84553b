import Borrrdex.Fs.ReadFile
import Mathlib.Tactic

/-!
# Reading a file to its end

A program that opens a file reads until nothing comes: each call is `fs::read` of the descriptor,
which hands its position to `ext2_volume::read` and moves it by what was returned.  A request of
`ext2_volume::read` may lose its last block (`DropsLastBlock`), but not one that stays inside a
block: with a buffer whose size divides the size of a block, every request of such a program does
(`not_drops`).  So the program gets the file (`readToEnd_file`).

On an AHCI disk the bytes are those of the sectors that the partition and the block map name
(`readToEnd_ahci`).
-/

set_option autoImplicit false

namespace Borrrdex

open Splice

variable {σ : Type}

namespace Ext2Volume

open VolumeState

variable (v : Ext2Volume σ)

/-- `fs::read` of a descriptor: what is returned, the buffer, the position and the state. -/
def readHandle (node : Ext2File) (size : U64) (buffer : List Byte) (pos : U64)
    (s : VolumeState σ) : ℤ × List Byte × U64 × VolumeState σ :=
  let (ret, buffer, s) := v.read node pos size buffer s
  (ret, buffer, if ret > 0 then pos + BitVec.ofInt 64 ret else pos, s)

/-- A program that reads until nothing comes, in so many calls at most: the bytes it has seen, the
position and the state. -/
def readToEnd (node : Ext2File) (chunk : U64) :
    ℕ → List Byte → U64 → List Byte → VolumeState σ → Option (List Byte × U64 × VolumeState σ)
  | 0, _, _, _, _ => none
  | calls + 1, buffer, pos, seen, s =>
    let (ret, buffer, pos, s) := v.readHandle node chunk buffer pos s
    if ret > 0 then readToEnd node chunk calls buffer pos (seen ++ buffer.take ret.toNat) s
    else some (seen, pos, s)

variable {v} {node : Ext2File} {chunk pos : U64} {s : VolumeState σ}

/-! ## One call -/

/-- The log grows. -/
theorem prefix_read (v : Ext2Volume σ) (node : Ext2File) (offset size : U64) (buffer : List Byte)
    (s : VolumeState σ) : s.log <+: (v.read node offset size buffer s).2.2.log := by
  rcases Nat.lt_or_ge offset.toNat node.size.toNat with hoffset | hoffset
  · rw [Ext2Volume.read]
    exact (prefix_findDataBlocksBy (v.prefix_findDataBlock node) _ s).trans
      (v.prefix_readBy _ size buffer s hoffset)
  · rw [v.read_of_le size buffer s hoffset]

theorem no_wrap (hpos : pos.toNat < node.size.toNat)
    (hchunk : chunk.toNat ≤ v.blockSize.toNat) : pos.toNat + chunk.toNat < 2 ^ 64 := by
  have hsize := node.size.isLt
  have hbs := v.blockSize.isLt
  omega

/-- Inside the file, `read` returns the number of bytes there are, or its wrong 1. -/
theorem read_code (hpos : pos.toNat < node.size.toNat) (hchunk : chunk.toNat ≤ v.blockSize.toNat)
    (buffer : List Byte) : (v.read node pos chunk buffer s).1 = node.available pos chunk ∨
      (v.read node pos chunk buffer s).1 = 1 := by
  obtain ⟨blockList, t, hfind⟩ := v.exists_found node pos chunk s hpos
  obtain ⟨_, _, _, -, -, -, hread⟩ :=
    v.readBy_eq _ node pos chunk s hpos (no_wrap hpos hchunk) hfind
  rw [Ext2Volume.read, hread]
  dsimp only
  split
  · exact .inl rfl
  · exact .inr rfl

/-- **A request that begins at a multiple of its size stays inside a block**, if its size divides
that of a block. -/
theorem not_drops (node : Ext2File) (hchunk : 0 < chunk.toNat)
    (hdvd : chunk.toNat ∣ v.blockSize.toNat) (hpos : chunk.toNat ∣ pos.toNat) :
    ¬ v.DropsLastBlock node pos chunk := by
  rintro ⟨hspan, -⟩
  have hbs := v.blockSize_pos
  have hle : node.available pos chunk ≤ chunk.toNat := Nat.min_le_left _ _
  rw [spanned] at hspan
  have hmod : pos.toNat % v.blockSize.toNat + chunk.toNat ≤ v.blockSize.toNat := by
    obtain ⟨k, hk⟩ := hdvd
    obtain ⟨q, hq⟩ := hpos
    have hkpos : 0 < k := Nat.pos_of_mul_pos_left (hk ▸ hbs)
    rw [hk, hq, Nat.mul_mod_mul_left, ← Nat.mul_succ]
    exact Nat.mul_le_mul_left _ (Nat.mod_lt q hkpos)
  have hdiv := Nat.div_add_mod pos.toNat v.blockSize.toNat
  have hnext : (pos.toNat + node.available pos chunk + v.blockSize.toNat - 1) /
      v.blockSize.toNat < pos.toNat / v.blockSize.toNat + 2 := by
    rw [Nat.div_lt_iff_lt_mul hbs, Nat.add_mul]
    rw [Nat.mul_comm] at hdiv
    omega
  omega

/-- A call inside the file that none of its blocks fails. -/
theorem readHandle_of_requests (hdrop : ¬ v.DropsLastBlock node pos chunk)
    (hsize : node.size.toNat ≤ (12 + v.entries) * v.blockSize.toNat)
    (hpos : pos.toNat < node.size.toNat) (hchunk : chunk.toNat ≤ v.blockSize.toNat)
    {buffer : List Byte} (hbuffer : chunk.toNat ≤ buffer.length)
    (hall : ∀ e ∈ asked s (v.read node pos chunk buffer s).2.2, e = true) :
    (v.read node pos chunk buffer s).1 = node.available pos chunk ∧
      (v.read node pos chunk buffer s).2.1.length = buffer.length ∧
      ∀ p < node.available pos chunk, (v.read node pos chunk buffer s).2.1[p]? =
        v.fileByte (v.mappedBlock node) (pos.toNat + p) := by
  rw [v.asked_read] at hall
  have hbs := v.blockSize.isLt
  have hreads := (read_delivers_iff hsize hpos hall).mpr ⟨no_wrap hpos hchunk, hdrop⟩
  obtain ⟨hcode, hbytes, -⟩ := hreads buffer hbuffer
  obtain ⟨blocks, -, hread⟩ := v.read_of_requests node pos chunk s hpos (by omega) hall
  obtain ⟨t, ht⟩ := hread buffer hbuffer
  rw [← Ext2Volume.read] at hcode hbytes
  refine ⟨hcode, ?_, hbytes⟩
  have hle : node.available pos chunk ≤ chunk.toNat := Nat.min_le_left _ _
  rw [ht]
  dsimp only
  refine length_splice ?_
  rw [List.length_take]
  omega

/-! ## The program -/

/-- What a program has seen when it is at a position: the file up to there. -/
structure Seen (v : Ext2Volume σ) (node : Ext2File) (chunk pos : U64) (seen : List Byte) :
    Prop where
  length : seen.length = pos.toNat
  bytes : ∀ p < pos.toNat, seen[p]? = v.fileByte (v.mappedBlock node) p
  le : pos.toNat ≤ node.size.toNat
  /-- It is at the end, or its next request begins at a multiple of its size. -/
  aligned : pos.toNat = node.size.toNat ∨ chunk.toNat ∣ pos.toNat

theorem Seen.zero : v.Seen node chunk 0 [] where
  length := rfl
  bytes _ hp := absurd hp (Nat.not_lt_zero _)
  le := Nat.zero_le _
  aligned := .inr (dvd_zero _)

variable {seen buffer : List Byte}

theorem available_pos (hpos : pos.toNat < node.size.toNat) (hchunk : 0 < chunk.toNat) :
    0 < node.available pos chunk := by
  rw [Ext2File.available]
  omega

/-- The position moves by what was returned. -/
theorem toNat_advance {n : ℕ} (h : pos.toNat + n ≤ node.size.toNat) :
    (pos + BitVec.ofInt 64 (n : ℤ)).toNat = pos.toNat + n := by
  have hsize := node.size.isLt
  rw [BitVec.ofInt_natCast, BitVec.toNat_add, BitVec.toNat_ofNat, Nat.mod_eq_of_lt (a := n)
    (by omega), Nat.mod_eq_of_lt (by omega)]

/-- A call that no block fails goes on in the file. -/
theorem Seen.next (h : v.Seen node chunk pos seen)
    (hpos : pos.toNat < node.size.toNat) {bytes : List Byte}
    (hlength : node.available pos chunk ≤ bytes.length)
    (hbytes : ∀ p < node.available pos chunk,
      bytes[p]? = v.fileByte (v.mappedBlock node) (pos.toNat + p)) :
    v.Seen node chunk (pos + BitVec.ofInt 64 (node.available pos chunk))
      (seen ++ bytes.take (node.available pos chunk)) := by
  have hle : pos.toNat + node.available pos chunk ≤ node.size.toNat := by
    rw [Ext2File.available]
    omega
  have hpos' := toNat_advance hle
  constructor
  · rw [hpos', List.length_append, h.length, List.length_take_of_le hlength]
  · intro p hp
    rw [hpos'] at hp
    rcases Nat.lt_or_ge p pos.toNat with hlt | hge
    · rw [List.getElem?_append_left (h.length.symm ▸ hlt), h.bytes p hlt]
    · rw [List.getElem?_append_right (h.length.symm ▸ hge), h.length,
        List.getElem?_take_of_lt (by omega), hbytes _ (by omega)]
      congr 1
      omega
  · rw [hpos']
    exact hle
  · rw [hpos']
    have haligned := h.aligned.resolve_left (by omega)
    rcases Nat.lt_or_ge (node.size.toNat - pos.toNat) chunk.toNat with hlast | hfull
    · left
      rw [Ext2File.available]
      omega
    · right
      have hall : node.available pos chunk = chunk.toNat := Nat.min_eq_left hfull
      rw [hall]
      exact Nat.dvd_add_self_right.mpr haligned

/-- **The program ends**: each call moves it on, also one that returns the wrong 1. -/
theorem exists_readToEnd (hchunk : 0 < chunk.toNat) (hle : chunk.toNat ≤ v.blockSize.toNat)
    (calls : ℕ) (buffer : List Byte) (pos : U64) (seen : List Byte) (s : VolumeState σ)
    (hcalls : node.size.toNat - pos.toNat < calls) :
    ∃ r, v.readToEnd node chunk calls buffer pos seen s = some r := by
  induction calls generalizing buffer pos seen s with
  | zero => omega
  | succ calls ih =>
    rw [readToEnd, readHandle]
    dsimp only
    rcases Nat.lt_or_ge pos.toNat node.size.toNat with hpos | hend
    · have havailable := available_pos hpos hchunk
      have hfits : node.available pos chunk ≤ node.size.toNat - pos.toNat := Nat.min_le_right _ _
      obtain ⟨n, hn, hcode⟩ : ∃ n : ℕ, (1 ≤ n ∧ pos.toNat + n ≤ node.size.toNat) ∧
          (v.read node pos chunk buffer s).1 = n := by
        obtain hcode | hcode := read_code hpos hle buffer
        · exact ⟨_, by omega, hcode⟩
        · exact ⟨1, by omega, hcode⟩
      have hmove := toNat_advance hn.2
      rw [hcode, if_pos (by omega), if_pos (by omega)]
      exact ih _ _ _ _ (by omega)
    · rw [v.read_of_le chunk buffer s hend]
      exact ⟨_, rfl⟩

theorem prefix_readToEnd (calls : ℕ) {out : List Byte} {pos' : U64} {s' : VolumeState σ}
    (h : v.readToEnd node chunk calls buffer pos seen s = some (out, pos', s')) :
    s.log <+: s'.log := by
  induction calls generalizing buffer pos seen s with
  | zero => cases h
  | succ calls ih =>
    rw [readToEnd, readHandle] at h
    dsimp only at h
    have hfirst := v.prefix_read node pos chunk buffer s
    split at h
    · exact hfirst.trans (ih h)
    · cases h
      exact hfirst

/-- **The program gets the file**, if no block that is asked for fails. -/
theorem readToEnd_of_asked (hchunk : 0 < chunk.toNat) (hdvd : chunk.toNat ∣ v.blockSize.toNat)
    (hsize : node.size.toNat ≤ (12 + v.entries) * v.blockSize.toNat)
    (hbuffer : chunk.toNat ≤ buffer.length) (hseen : v.Seen node chunk pos seen)
    (calls : ℕ) {out : List Byte} {pos' : U64} {s' : VolumeState σ}
    (h : v.readToEnd node chunk calls buffer pos seen s = some (out, pos', s'))
    (hall : ∀ e ∈ asked s s', e = true) :
    v.Seen node chunk pos' out ∧ pos'.toNat = node.size.toNat := by
  induction calls generalizing buffer pos seen s with
  | zero => cases h
  | succ calls ih =>
    have hprefix := v.prefix_read node pos chunk buffer s
    rw [readToEnd, readHandle] at h
    dsimp only at h
    rcases Nat.lt_or_ge pos.toNat node.size.toNat with hpos | hend
    · have hle := Nat.le_of_dvd v.blockSize_pos hdvd
      have hdrop := not_drops node hchunk hdvd (hseen.aligned.resolve_left (by omega))
      have hlater : (v.read node pos chunk buffer s).2.2.log <+: s'.log := by
        split at h
        · exact prefix_readToEnd _ h
        · cases h
          exact List.prefix_rfl
      have hfirst : ∀ e ∈ asked s (v.read node pos chunk buffer s).2.2, e = true := fun e he ↦
        hall e (asked_trans hprefix hlater ▸ List.mem_append_left _ he)
      obtain ⟨hcode, hlength, hbytes⟩ :=
        readHandle_of_requests hdrop hsize hpos hle hbuffer hfirst
      have havailable := available_pos hpos hchunk
      rw [hcode, if_pos (by omega), if_pos (by omega), Int.toNat_natCast] at h
      have hfits : node.available pos chunk ≤ chunk.toNat := Nat.min_le_left _ _
      exact ih (hlength ▸ hbuffer) (hseen.next hpos (by omega) hbytes) h fun e he ↦
        hall e (mem_asked hprefix he)
    · rw [v.read_of_le chunk buffer s hend] at h
      cases h
      exact ⟨hseen, le_antisymm hseen.le hend⟩

/-- **A program that reads to the end** with a buffer whose size divides that of a block ends, and
if no block that was asked for has failed, it has the file, and the position is the file's end. -/
theorem readToEnd_file (hchunk : 0 < chunk.toNat) (hdvd : chunk.toNat ∣ v.blockSize.toNat)
    (hsize : node.size.toNat ≤ (12 + v.entries) * v.blockSize.toNat)
    (hbuffer : chunk.toNat ≤ buffer.length) : ∃ out pos s',
      v.readToEnd node chunk (node.size.toNat + 1) buffer 0 [] s = some (out, pos, s') ∧
      ((∀ e ∈ asked s s', e = true) → pos.toNat = node.size.toNat ∧
        out.length = node.size.toNat ∧
        ∀ p < node.size.toNat, out[p]? = v.fileByte (v.mappedBlock node) p) := by
  obtain ⟨⟨out, pos, s'⟩, h⟩ := exists_readToEnd hchunk (Nat.le_of_dvd v.blockSize_pos hdvd)
    (node.size.toNat + 1) buffer 0 [] s (Nat.lt_succ_of_le (Nat.sub_le _ _))
  refine ⟨out, pos, s', h, fun hall ↦ ?_⟩
  obtain ⟨hseen, hend⟩ := readToEnd_of_asked hchunk hdvd hsize hbuffer Seen.zero _ h hall
  exact ⟨hend, hend ▸ hseen.length, fun p hp ↦ hseen.bytes p (hend.symm ▸ hp)⟩

end Ext2Volume

/-! ## On an AHCI disk -/

open Ahci Ext2Volume VolumeState

/-- A byte of some sectors. -/
theorem getElem?_flatten_sectors (d : PortDisk) (lba : ℕ) {n j : ℕ} (hj : j < n * 512) :
    (sectors d.media lba n).flatten[j]? = (d.media ((lba + j / 512) % 2 ^ 48))[j % 512]? := by
  induction n generalizing lba j with
  | zero => omega
  | succ n ih =>
    have hsplit : sectors d.media lba (n + 1) =
        d.media (lba % 2 ^ 48) :: sectors d.media (lba + 1) n := by
      rw [sectors, List.range_succ_eq_map, List.map_cons, List.map_map, sectors]
      refine congrArg _ (List.map_congr_left fun i _ ↦ ?_)
      simp only [Function.comp_apply]
      congr 2
      omega
    rw [hsplit, List.flatten_cons]
    have hlength := d.media_length (lba % 2 ^ 48)
    rcases Nat.lt_or_ge j 512 with hlt | hge
    · rw [List.getElem?_append_left (by omega), Nat.div_eq_of_lt hlt, Nat.mod_eq_of_lt hlt,
        Nat.add_zero]
    · rw [List.getElem?_append_right (by omega), hlength, ih (lba + 1) (by omega)]
      have hdiv : lba + 1 + (j - 512) / 512 = lba + j / 512 := by omega
      have hmod : (j - 512) % 512 = j % 512 := by omega
      rw [hdiv, hmod]

/-- A byte of an AHCI disk. -/
def Ahci.PortDisk.byteAt (d : PortDisk) (a : ℕ) : Option Byte :=
  (d.media (a / 512 % 2 ^ 48))[a % 512]?

section

variable (d : PortDisk) (writeDiskBlock : Transfer PortState) (partition : Partition)
  (blockCount : U32) (logBlockSize : ℕ) (h : logBlockSize ≤ 21) (garbage : ℕ → ℕ → Byte)
  (stray : ℕ → U32)

/-- A byte of a block is a byte of the disk. -/
theorem getElem?_blockContents_ahci (b : U32) {i : ℕ} :
    let v := ahciVolume d writeDiskBlock partition blockCount logBlockSize h garbage stray
    i < v.blockSize.toNat → (v.blockContents b)[i]? = d.byteAt (v.blockSector b * 512 + i) := by
  intro v hi
  have hbs : v.sectorsPerBlock.toNat * 512 = v.blockSize.toNat := v.sectorsPerBlock_mul
  have hbytes : v.blockContents b = (sectors d.media (BitVec.ofNat 64 (v.blockSector b)).toNat
      v.sectorsPerBlock.toNat).flatten := rfl
  rw [hbytes, getElem?_flatten_sectors d _ (by omega), PortDisk.byteAt, BitVec.toNat_ofNat]
  have hdiv : (v.blockSector b * 512 + i) / 512 = v.blockSector b + i / 512 := by omega
  have hmod : (v.blockSector b * 512 + i) % 512 = i % 512 := by omega
  have hwrap : (v.blockSector b % 2 ^ 64 + i / 512) % 2 ^ 48 =
      (v.blockSector b + i / 512) % 2 ^ 48 := by omega
  rw [hdiv, hmod, hwrap]

/-- **A file on an AHCI disk**: a program that reads to the end, with a buffer whose size divides
that of a block, gets the bytes of the file's blocks on the disk, as the partition and the block map
of the inode name them, if every block that was asked for has passed the partition's check and was
read, or was cached as it is on the disk.  The blocks, and the indirect block if there is one, begin
less than 2^32 sectors into the partition. -/
theorem readToEnd_ahci (node : Ext2File) (chunk : U64) (buffer : List Byte)
    (s : VolumeState PortState)
    (hchunk : 0 < chunk.toNat) (hdvd : chunk.toNat ∣ 2 ^ (10 + logBlockSize))
    (hbuffer : chunk.toNat ≤ buffer.length) :
    let v := ahciVolume d writeDiskBlock partition blockCount logBlockSize h garbage stray
    node.size.toNat ≤ (12 + v.entries) * v.blockSize.toNat →
    (∀ i, i * v.blockSize.toNat < node.size.toNat → v.Addressed (v.fileBlock node i)) →
    (12 * v.blockSize.toNat < node.size.toNat → v.Addressed (node.iBlock 12)) →
    ∃ out pos s',
      v.readToEnd node chunk (node.size.toNat + 1) buffer 0 [] s = some (out, pos, s') ∧
      ((∀ e ∈ asked s s', e = true) → pos.toNat = node.size.toNat ∧
        out.length = node.size.toNat ∧
        ∀ p < node.size.toNat, out[p]? = d.byteAt
          (v.blockSector (v.fileBlock node (p / v.blockSize.toNat)) * 512 +
            p % v.blockSize.toNat)) := by
  intro v hsize hblocks hindirect
  have hdvd' : chunk.toNat ∣ v.blockSize.toNat := v.toNat_blockSize ▸ hdvd
  obtain ⟨out, pos, s', hread, hfile⟩ := readToEnd_file (s := s) hchunk hdvd' hsize hbuffer
  refine ⟨out, pos, s', hread, fun hall ↦ ?_⟩
  obtain ⟨hpos, hlength, hbytes⟩ := hfile hall
  refine ⟨hpos, hlength, fun p hp ↦ ?_⟩
  have hdiv : p / v.blockSize.toNat * v.blockSize.toNat ≤ p := Nat.div_mul_le_self ..
  have hindex : p / v.blockSize.toNat < 12 + v.entries :=
    Nat.lt_of_mul_lt_mul_right ((hdiv.trans_lt hp).trans_le hsize)
  have hmap : v.mappedBlock node (p / v.blockSize.toNat) =
      v.fileBlock node (p / v.blockSize.toNat) := by
    refine v.mappedBlock_eq_fileBlock node hindex fun hge ↦ hindirect ?_
    exact (Nat.mul_le_mul_right _ hge).trans_lt (hdiv.trans_lt hp)
  rw [hbytes p hp, fileByte, hmap, (hblocks _ (hdiv.trans_lt hp)).blockBytes_eq]
  exact getElem?_blockContents_ahci d writeDiskBlock partition blockCount logBlockSize h garbage
    stray _ (Nat.mod_lt p v.blockSize_pos)

end

/-- A file of one byte. -/
theorem readToEnd_ahci_byteFile : ∃ out pos s',
    smallVolume.readToEnd byteFile 512 2 (List.replicate 512 0xaa) 0 [] (portState true) =
      some (out, pos, s') ∧ out.length = 1 := by
  have hblocks : ∀ i, i * smallVolume.blockSize.toNat < byteFile.size.toNat →
      smallVolume.Addressed (smallVolume.fileBlock byteFile i) := by
    intro i hi
    have hlt : i * 1024 < 1 := hi
    obtain rfl : i = 0 := by omega
    decide
  obtain ⟨out, pos, s', hread, hfile⟩ := readToEnd_ahci zeroDisk
    (fun _ _ buffer s ↦ (-1, buffer, s)) ⟨0, 100⟩ 40 0 zero_le_logBlockSize (fun _ _ ↦ 0xaa)
    (fun _ ↦ 0) byteFile 512 (List.replicate 512 0xaa) (portState true) (by decide) (by decide)
    (List.length_replicate).ge (by decide) hblocks (by decide)
  have hlog : (smallVolume.readToEnd byteFile 512 2 (List.replicate 512 0xaa) 0 []
      (portState true)).map (·.2.2.log) = some [true] := by rfl
  have hread' : smallVolume.readToEnd byteFile 512 2 (List.replicate 512 0xaa) 0 []
      (portState true) = some (out, pos, s') := hread
  rw [hread', Option.map_some, Option.some.injEq] at hlog
  refine ⟨out, pos, s', hread', (hfile fun e he ↦ ?_).2.1⟩
  have hone : e ∈ [true] := hlog ▸ he
  exact List.mem_singleton.mp hone

end Borrrdex
