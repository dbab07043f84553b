import Borrrdex.Fs.Directory

/-!
# Listing a directory

A directory is listed by calls of `read_dir` with the indices 0, 1, 2, and so on, until one of them
returns 0.  `Lists` is what they ought to give: every record in use once, in order, with its name
and type, and nothing read behind the buffer.

None of the calls goes on to the next block, and there is no end of the first one for them: a block
is left when the offset is greater than the block size, and at the end of a block it is equal to it.
The call that gets there reads the header of a record behind the buffer (`not_lists`), and every
call before it has returned 1.
-/

set_option autoImplicit false

namespace Borrrdex

open Splice FlatMemory

variable {σ τ : Type}

namespace DirScan

variable {d : DirScan τ} {blocks : U32 → Option (List Byte)} {I : τ → Prop}

/-! ## What every call keeps -/

theorem Loads.readDirStep_kept (h : d.Loads blocks I) {index index' : U32} {c c' : DirCursor}
    {t t' : τ} {reads : List ℕ} (ht : I t) (hlen : c.buffer.length = d.blockSize.toNat)
    (hr : d.readDirStep index c t = (.next index' c' t', reads)) :
    I t' ∧ c'.buffer.length = d.blockSize.toNat := by
  obtain ⟨hload, ht'⟩ := h.load (c.currentBlock + 1) c.buffer t ht hlen
  rw [readDirStep] at hr
  dsimp only at hr
  split at hr
  · cases hr
  split at hr
  · cases hr
  split at hr
  · split at hr
    · cases hr
    split at hr
    · cases hr
    · next hread =>
      rw [hread] at hload ht'
      cases hr
      exact ⟨ht', h.length _ _ hload.symm⟩
  · cases hr
    exact ⟨ht, hlen⟩

theorem Loads.readDirStep_done (h : d.Loads blocks I) {index : U32} {c : DirCursor} {t t' : τ}
    {r : ReadDirEnd} {reads : List ℕ} (ht : I t) (hlen : c.buffer.length = d.blockSize.toNat)
    (hr : d.readDirStep index c t = (.done r t', reads)) : I t' := by
  obtain ⟨hload, ht'⟩ := h.load (c.currentBlock + 1) c.buffer t ht hlen
  rw [readDirStep] at hr
  dsimp only at hr
  split at hr
  · cases hr
    exact ht
  split at hr
  · cases hr
    exact ht
  split at hr
  · split at hr
    · cases hr
      exact ht
    split at hr
    · next hread =>
      rw [hread] at ht'
      cases hr
      exact ht'
    · cases hr
  · cases hr

theorem Loads.readDirLoop_kept (h : d.Loads blocks I) {fuel : ℕ} {i index : U32} {c : DirCursor}
    {t t' : τ} {r : ReadDirEnd} {reads : List ℕ} (ht : I t)
    (hlen : c.buffer.length = d.blockSize.toNat)
    (hr : d.readDirLoop fuel i index c t = some (r, t', reads)) : I t' := by
  induction fuel generalizing i index c t reads with
  | zero => cases hr
  | succ fuel ih =>
    rw [readDirLoop] at hr
    split at hr
    · cases hr
      exact ht
    split at hr
    · next hstep =>
      rw [Option.map_eq_some_iff] at hr
      obtain ⟨_, hrest, heq⟩ := hr
      cases heq
      obtain ⟨ht', hlen'⟩ := h.readDirStep_kept ht hlen hstep
      exact ih ht' hlen' hrest
    · next hstep =>
      cases hr
      exact h.readDirStep_done ht hlen hstep

theorem Loads.readEntry_kept (h : d.Loads blocks I) {index : U32} {buffer : List Byte} {t : τ}
    {r : ReadDirResult τ} (ht : I t) (hlen : buffer.length = d.blockSize.toNat)
    (hr : d.readEntry index buffer t = some r) : I r.state := by
  obtain ⟨hload, ht'⟩ := h.load 0 buffer t ht hlen
  rw [readEntry] at hr
  split at hr
  · next hread =>
    cases hr
    rw [hread] at ht'
    exact ht'
  next block t₁ hread =>
  rw [hread] at hload ht'
  split at hr
  · cases hr
  · next hloop =>
    cases hr
    exact h.readDirLoop_kept ht' (h.length _ _ hload.symm) hloop
  · next hloop =>
    cases hr
    exact h.readDirLoop_kept ht' (h.length _ _ hload.symm) hloop

/-! ## The first block -/

/-- The index with which a call gets to the end of these records: an unused one is counted twice,
since `index` goes down as the loop's counter goes up. -/
def endIndex (entries : List DirEntry) : ℕ :=
  (entries.map fun e ↦ if e.inode = 0 then 2 else 1).sum

theorem endIndex_cons (e : DirEntry) (entries : List DirEntry) :
    endIndex (e :: entries) = (if e.inode = 0 then 2 else 1) + endIndex entries := by
  rw [endIndex, List.map_cons, List.sum_cons]
  rfl

theorem endIndex_le (entries : List DirEntry) : endIndex entries ≤ 2 * entries.length := by
  induction entries with
  | nil => exact le_rfl
  | cons e entries ih =>
    rw [endIndex_cons, List.length_cons]
    split <;> omega

/-- **The loop stays in the first block** up to that index, and with it comes to the end of the
block. -/
theorem readDirLoop_tiled {fuel o : ℕ} {i : U32} (index : U32) {c : DirCursor}
    {entries : List DirEntry} (t : τ) (hc : c.dirent = o ∧ c.blockOffset.toNat = o)
    (htiled : Tiled (d.frame.byte c.buffer) d.blockSize.toNat o entries)
    (hindex : index.toNat - i.toNat ≤ endIndex entries)
    (hfuel : index.toNat - i.toNat < fuel) :
    ∃ c' reads, d.readDirLoop fuel i index c t = some (.entry c', t, reads) ∧
      (index.toNat - i.toNat = endIndex entries → c'.dirent = d.blockSize.toNat) := by
  induction entries generalizing fuel o i index c with
  | nil =>
    obtain ⟨fuel, rfl⟩ := Nat.exists_eq_add_one_of_ne_zero (by omega : fuel ≠ 0)
    have hle : index.toNat - i.toNat = 0 := Nat.le_zero.mp hindex
    have hnot : ¬ i < index := by bv_omega
    refine ⟨c, [], ?_, fun _ ↦ hc.1.trans htiled⟩
    rw [readDirLoop, if_pos hnot]
  | cons e entries ih =>
    obtain ⟨fuel, rfl⟩ := Nat.exists_eq_add_one_of_ne_zero (by omega : fuel ≠ 0)
    rw [endIndex_cons] at hindex ⊢
    by_cases hlt : i < index
    swap
    · refine ⟨c, [], ?_, fun heq ↦ ?_⟩
      · rw [readDirLoop, if_pos hlt]
      · have : index.toNat ≤ i.toNat := BitVec.not_lt.mp hlt
        split at heq <;> omega
    have hlt' : i.toNat < index.toNat := hlt
    obtain ⟨hat, hrest⟩ := htiled
    have hend := hrest.le
    have hbs := d.blockSize.isLt
    have hge := hat.recLen_ge
    have hoffset : (c.blockOffset + direntRecLen (d.frame.byte c.buffer) o).toNat =
        o + e.recLen := by
      rw [BitVec.toNat_add, hc.2, hat.recLen_eq, Nat.mod_eq_of_lt (by omega)]
    have hstay : ¬ c.blockOffset + direntRecLen (d.frame.byte c.buffer) o > d.blockSize := by
      rw [gt_iff_lt, BitVec.lt_def, hoffset]
      omega
    have hlarge : ¬ direntRecLen (d.frame.byte c.buffer) o < 8 := by
      rw [BitVec.lt_def, hat.recLen_eq]
      exact not_lt.mpr hge
    have hne : direntRecLen (d.frame.byte c.buffer) o ≠ 0 := fun hzero ↦ by
      rw [hzero] at hlarge
      exact hlarge (by decide)
    set index' := if e.inode = 0 then index - 1 else index with hindexEq
    have hstep : d.readDirStep index c t = (.next index' ⟨c.currentBlock,
        c.blockOffset + direntRecLen (d.frame.byte c.buffer) o,
        c.totalOffset + direntRecLen (d.frame.byte c.buffer) o, o + e.recLen, c.buffer⟩ t,
        recLenReads o ++ inodeReads o) := by
      rw [readDirStep]
      dsimp only
      rw [hc.1, if_neg hne, if_neg hlarge, if_neg hstay, hat.inode_eq, hoffset]
    -- an unused record takes one from the index, too
    have hsub : (index - 1).toNat = index.toNat - 1 := BitVec.toNat_sub_of_le (by bv_omega)
    have hnext : index'.toNat = index.toNat - (if e.inode = 0 then 1 else 0) := by
      rw [hindexEq]
      split
      · exact hsub
      · rfl
    have hsucc : (i + 1).toNat = i.toNat + 1 := by bv_omega
    rw [readDirLoop, if_neg (not_not.mpr hlt), hstep]
    dsimp only
    have hindex' : index'.toNat - (i + 1).toNat ≤ endIndex entries := by
      split_ifs at hindex hnext <;> omega
    have hfuel' : index'.toNat - (i + 1).toNat < fuel := by omega
    have hc' : DirCursor.dirent ⟨c.currentBlock,
        c.blockOffset + direntRecLen (d.frame.byte c.buffer) o,
        c.totalOffset + direntRecLen (d.frame.byte c.buffer) o, o + e.recLen, c.buffer⟩ =
          o + e.recLen ∧ _ := ⟨rfl, hoffset⟩
    obtain ⟨c', reads, hloop, hdirent⟩ := ih index' hc' hrest hindex' hfuel'
    rw [hloop]
    refine ⟨c', _, rfl, fun heq ↦ hdirent ?_⟩
    split_ifs at heq hnext <;> omega

/-- A call that stays in the first block returns 1, and the one that comes to its end reads behind
it. -/
theorem Loads.readEntry_tiled (h : d.Loads blocks I) (index : U32)
    {buffer block : List Byte} {t : τ}
    {entries : List DirEntry} (ht : I t) (hlen : buffer.length = d.blockSize.toNat)
    (hblock : blocks 0 = some block)
    (htiled : Tiled (d.frame.byte block) d.blockSize.toNat 0 entries)
    (hindex : index.toNat ≤ endIndex entries) :
    ∃ r, d.readEntry index buffer t = some r ∧ r.code = 1 ∧
      (index.toNat = endIndex entries → d.blockSize.toNat + 6 ∈ r.reads) := by
  obtain ⟨hload, -⟩ := h.load 0 buffer t ht hlen
  have hcall : d.load 0 buffer t = (some block, (d.load 0 buffer t).2) :=
    Prod.ext (hload.trans hblock) rfl
  obtain ⟨c, reads, hloop, hend⟩ := readDirLoop_tiled (c := .start block) (i := 0) index
    (d.load 0 buffer t).2 ⟨rfl, rfl⟩ htiled hindex (Nat.lt_succ_self _)
  rw [readEntry, hcall]
  dsimp only
  rw [show index.toNat + 1 = index.toNat - (0 : U32).toNat + 1 from rfl, hloop]
  refine ⟨_, rfl, rfl, fun heq ↦ ?_⟩
  simp [hend heq]

end DirScan

/-! ## Listing a whole directory -/

/-- What the calls of a listing meet: the directory, the memory each of them finds and what is on
the stack where it has its buffer, and the volume at the beginning. -/
structure Listing (σ : Type) where
  enotdir : ℕ
  node : Ext2Dir
  frames : ℕ → Frame
  buffers : ℕ → List Byte
  state : VolumeState σ

/-- The records in use, in order. -/
def inUse (dir : List (List DirEntry)) : List DirEntry := dir.flatten.filter fun e ↦ e.inode ≠ 0

/-- An entry has got a record's name, with a null behind it, and its type. -/
structure ReadDirResult.Delivers (r : ReadDirResult τ) (frame : Frame) (e : DirEntry) : Prop where
  name : ∀ k (h : k < e.name.length), r.mem (frame.entName + BitVec.ofNat 64 k) = e.name[k]
  null : r.mem (frame.entName + BitVec.ofNat 64 e.name.length) = 0
  flags : r.flags = direntFlags e.fileType

namespace Ext2Volume

variable (v : Ext2Volume σ)

/-- The state in which the call with an index is made. -/
def listingState (l : Listing σ) : ℕ → Option (VolumeState σ)
  | 0 => some l.state
  | n + 1 => (listingState l n).bind fun s ↦
      (v.readDir l.enotdir l.node (BitVec.ofNat 32 n) (l.frames n) (l.buffers n) s).map (·.state)

/-- The call with an index. -/
def listingCall (l : Listing σ) (n : ℕ) : Option (ReadDirResult (VolumeState σ)) :=
  (v.listingState l n).bind (v.readDir l.enotdir l.node (BitVec.ofNat 32 n) (l.frames n)
    (l.buffers n))

/-- **A listing gives what is in the directory**: every record in use once and in order, then a 0,
and all that is read is in the buffer. -/
structure Lists (l : Listing σ) (dir : List (List DirEntry)) : Prop where
  entries : ∀ i (h : i < (inUse dir).length), ∃ r, v.listingCall l i = some r ∧ r.code = 1 ∧
    r.Delivers (l.frames i) (inUse dir)[i]
  last : ∃ r, v.listingCall l (inUse dir).length = some r ∧ r.code = 0
  inside : ∀ i ≤ (inUse dir).length, ∀ r, v.listingCall l i = some r →
    ∀ p ∈ r.reads, p < v.blockSize.toNat

variable {v} {l : Listing σ} {dir : List (List DirEntry)}

theorem readDir_eq (hdir : WellFormedDir v l.node dir) (index : U32) (frame : Frame)
    (buffer : List Byte) (s : VolumeState σ) :
    v.readDir l.enotdir l.node index frame buffer s =
      (v.dirScan l.node false frame).readEntry index buffer s := by
  rw [readDir, hdir.isDir, if_neg (by decide), if_neg hdir.inode_ne]

/-- **The calls of a listing**, up to the one that comes to the end of the first block. -/
theorem listingCall_first (hv : v.Readable) (hs : v.Coherent l.state)
    (hbuffers : ∀ n, (l.buffers n).length = v.blockSize.toNat) {first : List DirEntry}
    {rest : List (List DirEntry)} (hdir : WellFormedDir v l.node (first :: rest)) {n : ℕ}
    (hn : n ≤ DirScan.endIndex first) :
    ∃ r, v.listingCall l n = some r ∧ r.code = 1 ∧ v.Coherent r.state ∧
      (n = DirScan.endIndex first → v.blockSize.toNat + 6 ∈ r.reads) := by
  have hpos : 0 < (first :: rest).length := Nat.succ_pos _
  have hend := DirScan.endIndex_le first
  have hfit := (hdir.tiled 0 hpos).le
  have hbs := v.blockSize.isLt
  rw [List.getElem_cons_zero] at hfit
  have hcall : ∀ s, v.Coherent s → ∃ r, v.readDir l.enotdir l.node (BitVec.ofNat 32 n) (l.frames n)
      (l.buffers n) s = some r ∧ r.code = 1 ∧ v.Coherent r.state ∧
        (n = DirScan.endIndex first → v.blockSize.toNat + 6 ∈ r.reads) := by
    intro s hs
    have hindex : (BitVec.ofNat 32 n).toNat = n := by
      rw [BitVec.toNat_ofNat, Nat.mod_eq_of_lt (by omega)]
    have hloads := hv.loads l.node false (l.frames n)
    obtain ⟨r, hr, hcode, hreads⟩ := hloads.readEntry_tiled (BitVec.ofNat 32 n) hs
      (hbuffers n) (dirBlock_eq hdir (j := 0) hpos) (tiled_frame hdir hpos (l.frames n))
      (hindex.symm ▸ hn)
    rw [hindex] at hreads
    rw [readDir_eq hdir]
    exact ⟨r, hr, hcode, hloads.readEntry_kept hs (hbuffers n) hr, hreads⟩
  have hstate : ∃ s, v.listingState l n = some s ∧ v.Coherent s := by
    cases n with
    | zero => exact ⟨l.state, rfl, hs⟩
    | succ n =>
      obtain ⟨r, hr, -, hr', -⟩ := listingCall_first hv hs hbuffers hdir (Nat.le_of_succ_le hn)
      refine ⟨r.state, ?_, hr'⟩
      rw [listingState]
      rw [listingCall, Option.bind_eq_some_iff] at hr
      obtain ⟨s, hs, hr⟩ := hr
      rw [hs, Option.bind_some, hr]
      rfl
  obtain ⟨s, hstate, hs⟩ := hstate
  obtain ⟨r, hr, hrest⟩ := hcall s hs
  refine ⟨r, ?_, hrest⟩
  rw [listingCall, hstate, Option.bind_some, hr]

/-- **No directory is listed**: the first of its blocks is not left at its end, and if there is none
the call returns -1. -/
theorem not_lists (hv : v.Readable) (hs : v.Coherent l.state)
    (hbuffers : ∀ n, (l.buffers n).length = v.blockSize.toNat) (hdir : WellFormedDir v l.node dir)
    (hlen : dir.length ≤ 12) (hhole : dir.length = 0 → l.node.iBlock 0 = 0) : ¬ v.Lists l dir := by
  intro hlists
  cases dir with
  | nil =>
    obtain ⟨r, hr, hcode⟩ := hlists.last
    have hnone : v.dirBlock l.node 0 = none := by
      have hzero : v.foundOnDisk l.node.toExt2File 0 = 0 := by
        rw [foundOnDisk, if_pos (by decide), show (0 : U32).toNat = 0 from rfl, hhole rfl]
        rfl
      rw [dirBlock, hzero, if_pos (Or.inl (by decide))]
    rw [listingCall, show (inUse []).length = 0 from rfl, listingState, Option.bind_some,
      readDir_eq hdir, DirScan.readEntry] at hr
    have hload := ((hv.loads l.node false (l.frames 0)).load 0 (l.buffers 0) l.state hs
      (hbuffers 0)).1
    rw [hnone] at hload
    split at hr
    · cases hr
      cases hcode
    · next hread =>
      rw [hread] at hload
      cases hload
  | cons first rest =>
    rcases Nat.lt_or_ge (DirScan.endIndex first) (inUse (first :: rest)).length with hlt | hge
    · obtain ⟨r, hr, -, -, hreads⟩ := listingCall_first hv hs hbuffers hdir le_rfl
      have := hlists.inside _ hlt.le r hr _ (hreads rfl)
      omega
    · obtain ⟨r, hr, hcode⟩ := hlists.last
      obtain ⟨r', hr', hcode', -⟩ := listingCall_first hv hs hbuffers hdir hge
      rw [hr, Option.some.injEq] at hr'
      rw [hr', hcode'] at hcode
      exact absurd hcode (by decide)

/-- Every call finds the same memory. -/
def dotListing : Listing Unit where
  enotdir := 20
  node := dotDir
  frames _ := ⟨fun _ ↦ 0, 0x8000, 0x9000⟩
  buffers _ := List.replicate 1024 0
  state := DiskImage.mounted

theorem length_dotListing (n : ℕ) : (dotListing.buffers n).length = dotVolume.blockSize.toNat := by
  rw [dotVolume.toNat_blockSize]
  exact List.length_replicate

theorem not_lists_dotDir : ¬ dotVolume.Lists dotListing dotEntries :=
  not_lists (dotImage.readable_toVolume 40 (by decide) fun _ ↦ rfl) (coherent_new _ rfl)
    length_dotListing wellFormed_dotDir (by decide) (by decide)

/-- A directory with nothing but `.` and `..`. -/
theorem exists_not_lists :
    ¬ ∀ (v : Ext2Volume Unit) (l : Listing Unit) (dir : List (List DirEntry)), v.Readable →
      v.Coherent l.state → (∀ n, (l.buffers n).length = v.blockSize.toNat) →
        WellFormedDir v l.node dir → dir.length ≤ 12 → v.Lists l dir := by
  intro h
  have hv : dotVolume.Readable := dotImage.readable_toVolume 40 (by decide) fun _ ↦ rfl
  have hs : dotVolume.Coherent dotListing.state := coherent_new _ rfl
  have hlists := h dotVolume dotListing dotEntries hv hs length_dotListing wellFormed_dotDir
    (by decide)
  -- index 2 comes to the end of the block
  obtain ⟨r, hr, hcode⟩ := hlists.last
  obtain ⟨r', hr', hcode', -⟩ := listingCall_first hv hs length_dotListing
    wellFormed_dotDir (show 2 ≤ DirScan.endIndex _ by decide)
  rw [show (inUse dotEntries).length = 2 by decide, hr', Option.some.injEq] at hr
  rw [← hr, hcode'] at hcode
  exact absurd hcode (by decide)

end Ext2Volume

end Borrrdex
