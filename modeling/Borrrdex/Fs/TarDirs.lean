import Borrrdex.Fs.TarFlat

/-!
# Archives with directories

In an archive with directories the files of a directory come right behind it, with its name before
theirs.  `read_directory` looks for them from the header of the directory on, and compares each name
with that of the directory, which `make_node` has cut by then: the first header it looks at is that
of the directory, the character behind its name is the null of the cut, and it has no entries.  Then
both `read_directory` and the loop of the constructor step over the header, so that whatever comes
behind a directory is never looked at (`secondPass_skips`).

So an archive is represented by its volume only if nothing comes behind its directories: if it has
none, or a single one without files at its end (`construct_represents`).
-/

set_option autoImplicit false

namespace Borrrdex

open Components

namespace Tar

/-! ## What an archive stands for -/

/-- What is in the root: files, and directories with their files behind. -/
inductive TarItem
  | file (f : TarEntry)
  | dir (d : TarEntry) (files : List TarEntry)

/-- The entries of an archive for it. -/
def TarItem.entries : TarItem → List TarEntry
  | .file f => [f]
  | .dir d files => d :: files

/-- The name and the size of a directory. -/
structure TarEntry.Directory (d : TarEntry) (name : List Byte) : Prop where
  name_ne_nil : name ≠ []
  no_slash : 0x2F ∉ name
  name : d.name = name ++ [0x2F]
  type : d.type = tarTypeDirectory
  data : d.data = []

/-- The names and types of these entries. -/
def TarItem.WellFormed : TarItem → Prop
  | .file f => f.RootFile
  | .dir d files => ∃ name, d.Directory name ∧ ∀ f ∈ files, f.type = tarTypeFile ∧
      ∃ leaf, leaf ≠ [] ∧ 0x2F ∉ leaf ∧ f.name = name ++ 0x2F :: leaf

/-- The blocks of the root's entries, for an archive whose entries are in the blocks from `i` on. -/
def placed : ℕ → List TarItem → List (ℕ × TarItem)
  | _, [] => []
  | i, item :: items => (i, item) :: placed (behindAll i item.entries) items

/-- The last part of a name. -/
def TarEntry.lastPart (f : TarEntry) : List Byte := (components (· == 0x2F) f.name).getLastD []

/-- The headers of some nodes. -/
def TarVolume.headersOf (v : TarVolume) (inodes : List ℕ) : List (Option ℕ) :=
  inodes.map fun inode ↦ (v.node inode).header

/-- **A volume represents an archive**: it has one node for each entry, with its name, and no
others; the children of the root are the entries of the root, and those of a directory the entries
in it. -/
structure TarVolume.Represents (v : TarVolume) (items : List TarItem) : Prop where
  nodes : (v.headersOf v.state.inodes).Perm ((headers 0 (items.flatMap TarItem.entries)).map some)
  name : ∀ p ∈ (headers 0 (items.flatMap TarItem.entries)).zip (items.flatMap TarItem.entries),
    ∀ inode ∈ v.state.inodes, (v.node inode).header = some p.1 → (v.node inode).name = p.2.lastPart
  root : (v.headersOf (v.children 0)).Perm ((placed 0 items).map fun p ↦ some p.1)
  root_parent : ∀ p ∈ placed 0 items, ∀ inode ∈ v.state.inodes,
    (v.node inode).header = some p.1 → (v.node inode).parent = 0
  dir : ∀ i d files, (i, .dir d files) ∈ placed 0 items → ∀ inode ∈ v.state.inodes,
    (v.node inode).header = some i →
      (v.headersOf (v.children inode)).Perm ((headers (i + d.blocks) files).map some) ∧
      ∀ j ∈ headers (i + d.blocks) files, ∀ child ∈ v.state.inodes,
        (v.node child).header = some j → (v.node child).parent = inode

/-! ## The name of a directory -/

section Name

variable {name tail : List Byte} (hname : ∀ c ∈ name, c ≠ 0 ∧ c ≠ 0x2F) (hne : name ≠ [])

include hname in
theorem strchr_slash_name : ∀ c ∈ name, c ≠ 0 ∧ (strchr slash c).isSome = false := by
  intro c hc
  refine ⟨(hname c hc).1, Bool.eq_false_iff.mpr fun h ↦ ?_⟩
  exact (strchr_slash_isSome.mp h).elim (hname c hc).1 (hname c hc).2

include hname hne in
/-- The slash behind the name of a directory becomes a null. -/
theorem takeApart_directory :
    takeApart (name ++ 0x2F :: 0 :: tail) = (0, name ++ 0 :: 0 :: tail) := by
  have hfirst : strtokR (some 0) none slash (name ++ 0x2F :: 0 :: tail) =
      { token := some 0, saved := some (0 + name.length + 1), buf := name ++ 0 :: 0 :: tail } := by
    have hset : (name ++ 0x2F :: 0 :: tail).set (0 + name.length) 0 = name ++ 0 :: 0 :: tail := by
      rw [Nat.zero_add, List.set_append_right _ _ le_rfl, Nat.sub_self, List.set_cons_zero]
    rw [← hset]
    exact strtokR_run (List.drop_zero ..) hne (strchr_slash_name hname)
      ⟨by decide, strchr_slash_isSome.mpr (.inr rfl)⟩
  have hsecond : strtokR none (some (0 + name.length + 1)) slash (name ++ 0 :: 0 :: tail) =
      { token := none, saved := none, buf := name ++ 0 :: 0 :: tail } := by
    refine strtokR_end ?_
    rw [List.getD_eq_getElem?_getD, List.getElem?_append_right (by omega),
      show 0 + name.length + 1 - name.length = 1 by omega]
    rfl
  rw [takeApart, hfirst, partLoop]
  dsimp only
  rw [hsecond]
  obtain ⟨n, hn⟩ : ∃ n, (name ++ 0x2F :: 0 :: tail).length = n + 1 :=
    Nat.exists_eq_add_one_of_ne_zero (by simp)
  rw [hn, partLoop]

end Name

namespace EntryAt

variable {bytes name : List Byte} {i : ℕ} {d : TarEntry} (h : EntryAt bytes i d)
  (hd : d.Directory name)

include h hd

theorem takeApart_name : ∃ tail, takeApart (bytes.drop (512 * i)) = (0, name ++ 0 :: 0 :: tail) ∧
    ∀ c ∈ name, c ≠ 0 := by
  have hzero : ∀ c ∈ name, c ≠ 0 := fun c hc ↦
    d.name_ne_zero c (hd.name ▸ List.mem_append_left _ hc)
  obtain ⟨tail, htail⟩ := h.name
  have hbuf : bytes.drop (512 * i) = name ++ 0x2F :: 0 :: tail := by
    rw [← htail, hd.name, List.append_assoc, List.append_assoc]
    rfl
  refine ⟨tail, ?_, hzero⟩
  rw [hbuf]
  exact takeApart_directory (fun c hc ↦ ⟨hzero c hc, fun hc' ↦ hd.no_slash (hc' ▸ hc)⟩)
    hd.name_ne_nil

theorem nameAt_cut : Tar.nameAt (cut bytes i) i = name := by
  obtain ⟨tail, htake, hzero⟩ := h.takeApart_name hd
  rw [Tar.nameAt, drop_cut_self, htake]
  exact cString_append_cons_zero hzero _

theorem partAt : Tar.partAt bytes i = d.lastPart := by
  obtain ⟨tail, htake, hzero⟩ := h.takeApart_name hd
  have hlen := d.name_length
  rw [hd.name, List.length_append, List.length_singleton] at hlen
  have hpart : d.lastPart = name := by
    rw [TarEntry.lastPart, hd.name, components_concat (by decide),
      components_of_forall_not
        (fun c hc ↦ beq_false_of_ne (ne_of_mem_of_not_mem hc hd.no_slash)) hd.name_ne_nil]
    rfl
  rw [Tar.partAt, htake, hpart]
  dsimp only
  rw [List.drop_zero, cString_append_cons_zero hzero, List.take_of_length_le (by omega)]

theorem blocksAt_cut : blocksAt (cut bytes i) i = 0 := by
  have hlen := d.name_length
  rw [blocksAt, sizeAt_cut (by rw [h.nameAt]; omega), h.sizeAt, hd.data]
  rfl

/-- **A directory has no entries**: what is behind its name is the null of the cut. -/
theorem countEntries_eq {blockCount : ℕ} (hi : i < blockCount) {s : TarState}
    (hs : s.mem = cut bytes i) : countEntries blockCount i i 0 s = (0, s.look i) := by
  obtain ⟨tail, htake, hzero⟩ := h.takeApart_name hd
  have hlen := d.name_length
  rw [hd.name, List.length_append, List.length_singleton] at hlen
  have hname : Tar.nameAt s.mem i = name := hs ▸ h.nameAt_cut hd
  have hnull : s.mem.getD (512 * i + min name.length 100) 0 = 0 := by
    rw [List.getD_eq_getElem?_getD, ← List.getElem?_drop, hs, drop_cut_self, htake,
      Nat.min_eq_left (by omega), List.getElem?_append_right le_rfl, Nat.sub_self]
    rfl
  have hsame : ¬ (Tar.nameAt s.mem i ≠ Tar.nameAt s.mem i ∨ Tar.nameAt s.mem i = []) := by
    rw [hname]
    exact not_or.mpr ⟨fun h ↦ h rfl, hd.name_ne_nil⟩
  have hleaf : s.mem.getD (512 * i + min (Tar.nameAt s.mem i).length 100) 0 ≠ 0x2F := by
    rw [hname, hnull]
    decide
  rw [countEntries, dif_pos hi]
  exact (if_neg hsame).trans (if_pos hleaf)

/-- It is behind its header at once. -/
theorem readDirectory_eq {blockCount : ℕ} (hi : i < blockCount) (stale : ℕ → ℕ) {s : TarState}
    (hs : s.mem = bytes) : readDirectory blockCount stale i 0 s =
      (i + 1, (s.openDirectory blockCount stale i).2) ∧
      (s.openDirectory blockCount stale i).1 = 0 := by
  have hzero : (s.openDirectory blockCount stale i).1 = 0 := by
    rw [TarState.openDirectory, hs, h.blocksAt_cut hd, Nat.add_zero,
      h.countEntries_eq hd hi (congrArg (cut · i) hs)]
  refine ⟨?_, hzero⟩
  rw [Tar.readDirectory_eq, hzero, hs, h.blocksAt_cut hd, addEntries,
    dif_neg fun h ↦ Nat.not_lt_zero _ h.2]

end EntryAt

/-! ## What comes behind a directory -/

section Directory

variable {bytes name : List Byte} {blockCount capacity i : ℕ} {blocks : List ℕ} {s : TarState}
  {d : TarEntry}

/-- **The block behind a directory is stepped over.** -/
theorem secondPass_skips (stale : ℕ → ℕ → ℕ) (hi : i < blockCount) (h : EntryAt bytes i d)
    (hd : d.Directory name) (hs : FilesAdded bytes blockCount capacity blocks s) :
    ∃ t, secondPass blockCount stale i blocks.length s =
        secondPass blockCount stale (i + 2) (blocks.length + 1) t ∧
      NodesMade bytes blockCount capacity (blocks ++ [i]) t ∧ t.mem = cut bytes i := by
  have hne : s.nextNode ≠ 0 := hs.nextNode ▸ Nat.succ_ne_zero _
  have hname : nameAt s.mem i ≠ [] := by
    rw [hs.mem, h.nameAt]
    exact d.name_ne_nil
  have htype : typeAt s.mem i = tarTypeDirectory := by
    rw [hs.mem, h.typeAt, hd.type]
  have hblocks : blocksAt s.mem i = 0 := by
    rw [hs.mem, blocksAt, h.sizeAt, hd.data]
    rfl
  set s₀ := (s.look i).store 0 blocks.length s.nextNode with hs₀
  have hmem : s₀.mem = bytes := hs.mem
  obtain ⟨hread, hzero⟩ := h.readDirectory_eq hd hi (stale s.nextNode) hmem
  have hopened := opened_openDirectory hi (stale s.nextNode) s₀
  have hroot : s₀.nodes 0 =
      { s.nodes 0 with children := (s.nodes 0).children.store blocks.length s.nextNode } :=
    TarState.update_nodes_self ..
  refine ⟨(s₀.openDirectory blockCount (stale s.nextNode) i).2, ?_, ?_, ?_⟩
  · rw [secondPass_directory hi hname htype, hread, hblocks]
  · refine hs.add hopened.nextNode hopened.inodes ((hopened.other 0 hne.symm).trans hroot) ?_
      (hopened.entryCount.trans hzero) (fun k hk hk' ↦ ?_) ?_
    · rw [← hmem]
      exact hopened.made
    · exact (hopened.other k hk').trans (TarState.store_nodes_of_ne _ _ _ hk)
    · exact hopened.blocksRead (List.forall_mem_cons.mpr ⟨hi, hs.blocksRead⟩)
  · rw [hopened.mem, hmem]

/-- No node has been made for a header. -/
def NotMade (b : ℕ) (s : TarState) : Prop := ∀ inode, (s.nodes inode).header ≠ some b

theorem NotMade.update {b inode : ℕ} {f : TarNode → TarNode} (h : NotMade b s)
    (hf : ∀ n, (f n).header = n.header) : NotMade b (s.update inode f) := by
  intro k
  by_cases hk : k = inode
  · rw [hk, TarState.update_nodes_self, hf]
    exact h inode
  · rw [TarState.update_nodes_of_ne _ hk]
    exact h k

theorem NotMade.makeNode {b inode parent : ℕ} (h : NotMade b s) (hi : i ≠ b) :
    NotMade b (s.makeNode i inode parent) := by
  intro k
  by_cases hk : k = inode
  · rw [hk, (s.makeNode_made i inode parent).header]
    exact fun hb ↦ hi (Option.some.inj hb)
  · rw [TarState.makeNode_nodes_of_ne _ _ _ hk]
    exact h k

theorem NotMade.store {b dir e inode : ℕ} (h : NotMade b s) : NotMade b (s.store dir e inode) :=
  h.update fun _ ↦ rfl

theorem NotMade.addEntries {b dirInode entryCount e : ℕ} (h : NotMade b s) (hi : b < i) :
    NotMade b (Tar.addEntries blockCount dirInode entryCount i e s).2 := by
  induction hrest : blockCount - i using Nat.strong_induction_on generalizing i e s with
  | _ n ih =>
    subst hrest
    rw [Tar.addEntries]
    split
    · next hlt =>
      have hnode : NotMade b s.takeNode.2 := h
      exact ih _ (by omega) (NotMade.store (hnode.makeNode (Nat.ne_of_gt hi))) (by omega) rfl
    · exact h

theorem NotMade.readDirectory {b : ℕ} {stale : ℕ → ℕ} (h : NotMade b s) (hlt : i < blockCount)
    (hi : b < i) : NotMade b (Tar.readDirectory blockCount stale i 0 s).2 := by
  have hopened := opened_openDirectory hlt stale s
  rw [Tar.readDirectory_eq]
  refine NotMade.addEntries (fun k ↦ ?_) (by omega)
  by_cases hk : k = s.nextNode
  · rw [hk, hopened.made.header]
    exact fun hb ↦ (Nat.ne_of_gt hi) (Option.some.inj hb)
  · rw [hopened.other k hk]
    exact h k

/-- The second pass makes no nodes for the headers it has passed. -/
theorem NotMade.secondPass {b e : ℕ} {stale : ℕ → ℕ → ℕ} (h : NotMade b s) (hi : b < i) :
    NotMade b (Tar.secondPass blockCount stale i e s).2 := by
  refine secondPass_rule (fun i _ s ↦ NotMade b s ∧ b < i) (fun r ↦ NotMade b r.2)
    (fun i e s h _ ↦ h.1) (fun i e s h _ _ ↦ h.1) (fun i e s h hlt _ _ ↦ ?_)
    (fun i e s h _ _ _ ↦ ?_) (fun i e s h _ _ _ _ ↦ ⟨h.1, by omega⟩) ⟨h, hi⟩
  · refine ⟨NotMade.readDirectory (NotMade.store (s := s.look i) h.1) hlt h.2, ?_⟩
    have := lt_readDirectory blockCount (stale s.nextNode) i 0 ((s.look i).store 0 e s.nextNode)
    omega
  · refine ⟨NotMade.store ?_, by omega⟩
    exact NotMade.makeNode (s := (s.look i).takeNode.2) h.1 (Nat.ne_of_gt h.2)

end Directory

/-! ## Layout -/

theorem headers_append (i : ℕ) (fs rest : List TarEntry) :
    headers i (fs ++ rest) = headers i fs ++ headers (behindAll i fs) rest := by
  induction fs generalizing i with
  | nil => rfl
  | cons f fs ih => rw [List.cons_append, headers, ih, headers, behindAll_cons, List.cons_append]

theorem lt_of_mem_headers {i b : ℕ} {fs : List TarEntry} (hb : b ∈ headers i fs) :
    b < behindAll i fs := by
  induction fs generalizing i with
  | nil => cases hb
  | cons f fs ih =>
    rw [behindAll_cons]
    rcases List.mem_cons.mp hb with rfl | hb
    · rw [behindAll, TarEntry.blocks]
      omega
    · exact ih hb

theorem LaidOut.entryAt_of_mem {bytes : List Byte} {blockCount i : ℕ} {fs : List TarEntry}
    (h : LaidOut bytes blockCount i fs) :
    ∀ p ∈ (headers i fs).zip fs, EntryAt bytes p.1 p.2 ∧ p.2 ∈ fs := by
  induction fs generalizing i with
  | nil => exact fun p hp ↦ nomatch hp
  | cons f fs ih =>
    intro p hp
    rcases List.mem_cons.mp hp with rfl | hp
    · exact ⟨h.1, List.mem_cons_self⟩
    · exact ⟨(ih h.2 p hp).1, List.mem_cons_of_mem _ (ih h.2 p hp).2⟩

/-- Without files in directories each entry is one of the root. -/
theorem placed_eq {i : ℕ} {items : List TarItem}
    (h : ∀ d files, .dir d files ∈ items → files = []) :
    (placed i items).map Prod.fst = headers i (items.flatMap TarItem.entries) := by
  induction items generalizing i with
  | nil => rfl
  | cons item items ih =>
    have hrest := ih (i := behindAll i item.entries) fun d files hd ↦
      h d files (List.mem_cons_of_mem _ hd)
    have hone : headers i item.entries = [i] := by
      cases item with
      | file f => rfl
      | dir d files =>
        obtain rfl := h d files List.mem_cons_self
        rfl
    rw [placed, List.map_cons, hrest, List.flatMap_cons, headers_append, hone]
    rfl

theorem mem_of_mem_placed {i : ℕ} {items : List TarItem} :
    ∀ p ∈ placed i items, p.2 ∈ items := by
  induction items generalizing i with
  | nil => exact fun p hp ↦ nomatch hp
  | cons item items ih =>
    intro p hp
    rcases List.mem_cons.mp hp with rfl | hp
    · exact List.mem_cons_self
    · exact List.mem_cons_of_mem _ (ih p hp)

/-- Up to its first directory an archive has files. -/
theorem files_or_directory (items : List TarItem) : (∃ fs : List TarEntry, items = fs.map .file) ∨
    ∃ (fs : List TarEntry) (d : TarEntry) (files : List TarEntry) (post : List TarItem),
      items = fs.map .file ++ .dir d files :: post := by
  induction items with
  | nil => exact .inl ⟨[], rfl⟩
  | cons item items ih =>
    cases item with
    | dir d files => exact .inr ⟨[], d, files, items, rfl⟩
    | file f =>
      rcases ih with ⟨fs, rfl⟩ | ⟨fs, d, files, post, rfl⟩
      · exact .inl ⟨f :: fs, rfl⟩
      · exact .inr ⟨f :: fs, d, files, post, rfl⟩

theorem entries_files (fs : List TarEntry) :
    (fs.map TarItem.file).flatMap TarItem.entries = fs := by
  induction fs with
  | nil => rfl
  | cons f fs ih => rw [List.map_cons, List.flatMap_cons, ih]; rfl

/-- A directory behind files alone is the only one. -/
theorem directory_last {fs : List TarEntry} {d d' : TarEntry} {files' : List TarEntry}
    {pre post : List TarItem}
    (h : fs.map TarItem.file ++ [.dir d []] = pre ++ .dir d' files' :: post) :
    files' = [] ∧ post = [] := by
  induction fs generalizing pre with
  | nil =>
    cases pre with
    | nil =>
      obtain ⟨hd, hpost⟩ := List.cons.inj h
      exact ⟨(TarItem.dir.inj hd).2.symm, hpost.symm⟩
    | cons item pre =>
      obtain ⟨-, hnil⟩ := List.cons.inj h
      cases pre <;> cases hnil
  | cons f fs ih =>
    cases pre with
    | nil => cases (List.cons.inj h).1
    | cons item pre => exact ih (List.cons.inj h).2

/-! ## Volumes -/

theorem map_range'_eq {g : ℕ → Option ℕ} {blocks : List ℕ}
    (h : ∀ k i, blocks[k]? = some i → g (k + 1) = some i) :
    (List.range' 1 blocks.length).map g = blocks.map some := by
  rw [List.range'_eq_map_range, List.map_map]
  refine List.ext_getElem (by simp) fun k hk hk' ↦ ?_
  have hlt : k < blocks.length := by rwa [List.length_map] at hk'
  rw [List.getElem_map, List.getElem_map, List.getElem_range, Function.comp_apply, Nat.add_comm,
    h k _ (List.getElem?_eq_getElem hlt)]

section Volume

variable {bytes : List Byte} {blockCount capacity : ℕ} {items : List TarItem} {s : TarState}
  {v : TarVolume}

/-- The last part of the name of an entry of the root is what its node is called. -/
theorem EntryAt.partAt_root {i : ℕ} {f : TarEntry} (h : EntryAt bytes i f)
    (hf : f.RootFile ∨ ∃ name, f.Directory name) : Tar.partAt bytes i = f.lastPart := by
  rcases hf with hf | ⟨name, hd⟩
  · have hlen := f.name_length
    rw [partAt_of_no_slash (h.nameAt ▸ hf.no_slash), h.nameAt, TarEntry.lastPart,
      components_of_forall_not
        (fun c hc ↦ beq_false_of_ne (ne_of_mem_of_not_mem hc hf.no_slash)) f.name_ne_nil,
      List.take_of_length_le (by omega)]
    rfl
  · exact h.partAt hd

/-- Nodes for all entries represent an archive that has nothing in its directories. -/
theorem NodesMade.represents
    (h : LaidOut bytes blockCount 0 (items.flatMap TarItem.entries))
    (hitems : ∀ item ∈ items, item.WellFormed)
    (hempty : ∀ d files, .dir d files ∈ items → files = [])
    (hs : NodesMade bytes blockCount capacity (headers 0 (items.flatMap TarItem.entries)) s)
    (hv : v.state = s.update 0 fun n ↦
      { n with entryCount := (headers 0 (items.flatMap TarItem.entries)).length }) :
    v.Represents items := by
  set blocks := headers 0 (items.flatMap TarItem.entries) with hblocks
  have hnode : ∀ k, v.node (k + 1) = s.nodes (k + 1) := fun k ↦ by
    rw [TarVolume.node, hv, TarState.update_nodes_of_ne _ (Nat.succ_ne_zero k)]
  have hinodes : v.state.inodes = s.inodes := by
    rw [hv]
    rfl
  have hmade : ∀ inode ∈ v.state.inodes, ∃ i, inode ≠ 0 ∧ v.node inode = s.nodes inode ∧
      (v.node inode).MadeFrom bytes i inode 0 := by
    intro inode hinode
    rw [hinodes, ← List.mem_reverse, hs.inodes, List.mem_range'_1] at hinode
    obtain ⟨k, rfl⟩ : ∃ k, inode = k + 1 := ⟨inode - 1, by omega⟩
    have hk : k < blocks.length := by omega
    refine ⟨blocks[k], Nat.succ_ne_zero k, hnode k, ?_⟩
    rw [hnode]
    exact hs.node k _ (List.getElem?_eq_getElem hk)
  have hheaders : v.headersOf (List.range' 1 blocks.length) = blocks.map some :=
    map_range'_eq fun k i hi ↦ by rw [hnode, (hs.node k i hi).header]
  have hroot : (item : TarEntry) → item ∈ items.flatMap TarItem.entries →
      item.RootFile ∨ ∃ name, item.Directory name := by
    intro f hf
    obtain ⟨item, hitem, hf⟩ := List.mem_flatMap.mp hf
    have hwell := hitems item hitem
    cases item with
    | file g =>
      obtain rfl := List.mem_singleton.mp hf
      exact .inl hwell
    | dir d files =>
      obtain rfl := hempty d files hitem
      obtain rfl := List.mem_singleton.mp hf
      exact .inr ⟨_, hwell.choose_spec.1⟩
  refine ⟨?_, ?_, ?_, ?_, ?_⟩
  · rw [← hheaders, hinodes, ← hs.inodes]
    exact (List.reverse_perm s.inodes).symm.map _
  · intro p hp inode hinode hheader
    obtain ⟨hentry, hmem⟩ := h.entryAt_of_mem p hp
    obtain ⟨i, -, -, hn⟩ := hmade inode hinode
    rw [hn.header] at hheader
    rw [hn.name, Option.some.inj hheader, hentry.partAt_root (hroot _ hmem)]
  · have hplaced : (placed 0 items).map (fun p ↦ some p.1) = blocks.map some := by
      rw [hblocks, ← placed_eq hempty, List.map_map]
      rfl
    rw [hs.children_root hv, hheaders, hplaced]
  · intro p _ inode hinode _
    obtain ⟨i, -, -, hn⟩ := hmade inode hinode
    exact hn.parent
  · intro i d files hd inode hinode _
    obtain rfl := hempty d files (mem_of_mem_placed _ hd)
    obtain ⟨j, hne, hsame, -⟩ := hmade inode hinode
    have hnone : v.children inode = [] := by
      rw [TarVolume.children, hsame, hs.entryCount inode hne]
      rfl
    refine ⟨?_, fun j hj ↦ absurd hj List.not_mem_nil⟩
    rw [hnone]
    exact List.Perm.nil

end Volume

/-- An archive of files is represented. -/
theorem construct_represents_files {image : TarImage} {fs : List TarEntry}
    (h : LaidOut image.bytes image.blockCount 0 fs) (hfs : ∀ f ∈ fs, f.RootFile)
    (behind : List Byte) (stale : ℕ → ℕ → ℕ) :
    (TarVolume.construct image behind stale).Represents (fs.map .file) := by
  have hnil : LaidOut image.bytes image.blockCount 0 (fs ++ []) := by rwa [List.append_nil]
  obtain ⟨s, capacity, hconstruct, hs, -⟩ := construct_files hfs hnil behind stale
  obtain ⟨s', hpass, hs'⟩ := secondPass_nulls stale hnil.append_right hs fs.length
  rw [hpass] at hconstruct
  have hitems : ∀ item ∈ fs.map TarItem.file, item.WellFormed := by
    intro item hitem
    obtain ⟨f, hf, rfl⟩ := List.mem_map.mp hitem
    exact hfs f hf
  have hempty : ∀ d files, .dir d files ∈ fs.map TarItem.file → files = [] := by
    intro d files hd
    obtain ⟨f, -, hf⟩ := List.mem_map.mp hd
    cases hf
  refine NodesMade.represents (s := s') (by rwa [entries_files]) hitems hempty
    (by rw [entries_files]; exact hs'.toNodesMade) ?_
  rw [entries_files, length_headers]
  exact hconstruct

/-- So is one with a directory at its end, and nothing in it. -/
theorem construct_represents_directory {image : TarImage} {fs : List TarEntry} {d : TarEntry}
    {name : List Byte} (h : LaidOut image.bytes image.blockCount 0 (fs ++ [d]))
    (hfs : ∀ f ∈ fs, f.RootFile) (hd : d.Directory name) (behind : List Byte)
    (stale : ℕ → ℕ → ℕ) :
    (TarVolume.construct image behind stale).Represents (fs.map .file ++ [.dir d []]) := by
  obtain ⟨s, capacity, hconstruct, hs, -⟩ := construct_files hfs h behind stale
  have hlast := h.append_right
  obtain ⟨t, hpass, ht, hmem⟩ := secondPass_skips stale hlast.lt hlast.1 hd hs
  have hentries : (fs.map TarItem.file ++ [TarItem.dir d []]).flatMap TarItem.entries = fs ++
    [d] := by
    rw [List.flatMap_append, entries_files]
    rfl
  have hheaders : headers 0 (fs ++ [d]) = headers 0 fs ++ [behindAll 0 fs] :=
    headers_append 0 fs [d]
  have hblocks : d.blocks = 1 := by
    rw [TarEntry.blocks, hd.data]
    rfl
  -- the block that is stepped over is a block of nulls, if there is one
  obtain ⟨t', hstop, ht'⟩ : ∃ t', secondPass image.blockCount stale (behindAll 0 fs + 2)
        (fs.length + 1) t = (fs.length + 1, t') ∧
      NodesMade image.bytes image.blockCount capacity (headers 0 (fs ++ [d])) t' := by
    rw [hheaders]
    rcases Nat.lt_or_ge (behindAll 0 fs + 2) image.blockCount with hlt | hle
    · have hname := hlast.1.nameAt
      have hlen := d.name_length
      have hnull : t.mem[512 * (behindAll 0 fs + 2)]? = some 0 := by
        rw [hmem, ← List.head?_drop, drop_cut (by rw [hname]; omega), List.head?_drop]
        exact hlast.2.2 _ (by omega) (by omega)
      exact ⟨_, secondPass_end hlt (nameAt_of_null hnull), ht.look hlt⟩
    · exact ⟨_, secondPass_of_le hle, ht⟩
  rw [length_headers] at hpass
  rw [hpass, hstop] at hconstruct
  have hitems : ∀ item ∈ fs.map TarItem.file ++ [.dir d []], item.WellFormed := by
    intro item hitem
    rcases List.mem_append.mp hitem with hitem | hitem
    · obtain ⟨f, hf, rfl⟩ := List.mem_map.mp hitem
      exact hfs f hf
    · obtain rfl := List.mem_singleton.mp hitem
      exact ⟨name, hd, fun f hf ↦ absurd hf List.not_mem_nil⟩
  have hempty : ∀ d' files, .dir d' files ∈ fs.map TarItem.file ++ [.dir d []] → files = [] := by
    intro d' files hd'
    rcases List.mem_append.mp hd' with hd' | hd'
    · obtain ⟨f, -, hf⟩ := List.mem_map.mp hd'
      cases hf
    · exact (TarItem.dir.inj (List.mem_singleton.mp hd')).2
  refine NodesMade.represents (s := t') (by rwa [hentries]) hitems hempty (by rwa [hentries]) ?_
  rw [hentries, length_headers, List.length_append, List.length_singleton]
  exact hconstruct

/-- One that has something behind its first directory is not. -/
theorem not_represents {image : TarImage} {items : List TarItem} {fs rest : List TarEntry}
    {d f : TarEntry} {name : List Byte}
    (h : LaidOut image.bytes image.blockCount 0 (items.flatMap TarItem.entries))
    (hentries : items.flatMap TarItem.entries = fs ++ d :: f :: rest)
    (hfs : ∀ f ∈ fs, f.RootFile) (hd : d.Directory name) (behind : List Byte)
    (stale : ℕ → ℕ → ℕ) : ¬ (TarVolume.construct image behind stale).Represents items := by
  rw [hentries] at h
  obtain ⟨s, capacity, hconstruct, hs, -⟩ := construct_files hfs h behind stale
  have hlast := h.append_right
  obtain ⟨t, hpass, ht, -⟩ := secondPass_skips stale hlast.lt hlast.1 hd hs
  have hblocks : d.blocks = 1 := by
    rw [TarEntry.blocks, hd.data]
    rfl
  have hnone : NotMade (behindAll 0 fs + 1) t := by
    intro k hk
    rcases List.mem_append.mp (ht.header k _ hk) with hmem | hmem
    · have := lt_of_mem_headers hmem
      omega
    · have := List.mem_singleton.mp hmem
      omega
  have hfinal : NotMade (behindAll 0 fs + 1) (TarVolume.construct image behind stale).state := by
    rw [length_headers] at hpass
    rw [hconstruct, hpass]
    exact (hnone.secondPass (by omega)).update fun _ ↦ rfl
  intro hrep
  have hmem : some (behindAll 0 fs + 1) ∈
      (headers 0 (items.flatMap TarItem.entries)).map some := by
    rw [hentries, headers_append]
    refine List.mem_map_of_mem (List.mem_append_right _ (List.mem_cons_of_mem _ ?_))
    rw [hblocks]
    exact List.mem_cons_self
  obtain ⟨inode, -, hinode⟩ := List.mem_map.mp (hrep.nodes.mem_iff.mpr hmem)
  exact hfinal inode hinode

/-- **Which archives are represented**: those that have nothing behind a directory, not even its own
files. -/
theorem construct_represents {image : TarImage} {items : List TarItem}
    (h : LaidOut image.bytes image.blockCount 0 (items.flatMap TarItem.entries))
    (hitems : ∀ item ∈ items, item.WellFormed) (behind : List Byte) (stale : ℕ → ℕ → ℕ) :
    (TarVolume.construct image behind stale).Represents items ↔
      ∀ pre d files post, items = pre ++ .dir d files :: post → files = [] ∧ post = [] := by
  rcases files_or_directory items with ⟨fs, rfl⟩ | ⟨fs, d, files, post, rfl⟩
  · rw [entries_files] at h
    refine iff_of_true (construct_represents_files h
      (fun f hf ↦ hitems _ (List.mem_map_of_mem hf)) behind stale) ?_
    intro pre d files post hsplit
    have hd : TarItem.dir d files ∈ fs.map TarItem.file :=
      hsplit ▸ List.mem_append_right _ List.mem_cons_self
    obtain ⟨f, -, hf⟩ := List.mem_map.mp hd
    cases hf
  · have hfs : ∀ f ∈ fs, f.RootFile := fun f hf ↦
      hitems _ (List.mem_append_left _ (List.mem_map_of_mem hf))
    obtain ⟨name, hd, -⟩ := hitems (.dir d files) (List.mem_append_right _ List.mem_cons_self)
    have hentries : (fs.map TarItem.file ++ .dir d files :: post).flatMap TarItem.entries =
        fs ++ d :: (files ++ post.flatMap TarItem.entries) := by
      rw [List.flatMap_append, entries_files]
      rfl
    cases hrest : files ++ post.flatMap TarItem.entries with
    | nil =>
      obtain ⟨rfl, hpost⟩ := List.append_eq_nil_iff.mp hrest
      obtain rfl : post = [] := by
        cases post with
        | nil => rfl
        | cons item post => cases item <;> cases hpost
      rw [hentries, hrest] at h
      exact iff_of_true (construct_represents_directory h hfs hd behind stale)
        fun pre d' files' post' hsplit ↦ directory_last hsplit
    | cons f rest =>
      rw [hrest] at hentries
      refine iff_of_false (not_represents h hentries hfs hd behind stale) fun hlast ↦ ?_
      obtain ⟨rfl, rfl⟩ := hlast _ d files post rfl
      cases hrest

/-- A directory `d`. -/
def directoryD : TarEntry := ⟨[0x64, 0x2F], tarTypeDirectory, [], by decide, by decide, by decide⟩

/-- A file `a` in it, with one byte. -/
def fileInD : TarEntry :=
  ⟨[0x64, 0x2F, 0x61], tarTypeFile, [0x78], by decide, by decide, by decide⟩

theorem directory_directoryD : directoryD.Directory [0x64] :=
  ⟨by decide, by decide, rfl, rfl, rfl⟩

/-- The file `a`, and the directory without files. -/
def emptyDirectory : TarImage :=
  .written [(fileA, oneByte), (directoryD, noByte)] 2 (by decide) (by decide)

/-- The directory with its file. -/
def fullDirectory : TarImage :=
  .written [(directoryD, noByte), (fileInD, oneByte)] 2 (by decide) (by decide)

/-- The first is represented. -/
theorem construct_represents_emptyDirectory :
    (TarVolume.construct emptyDirectory [] fun _ _ ↦ 0).Represents
      [.file fileA, .dir directoryD []] := by
  have h : LaidOut emptyDirectory.bytes emptyDirectory.blockCount 0
      ([.file fileA, .dir directoryD []].flatMap TarItem.entries) :=
    TarImage.laidOut_written [(fileA, oneByte), (directoryD, noByte)] 2 (by decide) (by decide)
  refine (construct_represents h (fun item hitem ↦ ?_) [] _).mpr fun pre d files post hsplit ↦ ?_
  · rcases List.mem_pair.mp hitem with rfl | rfl
    · exact ⟨rfl, by decide⟩
    · exact ⟨[0x64], directory_directoryD, fun _ hf ↦ nomatch hf⟩
  · have hlast : [fileA].map TarItem.file ++ [.dir directoryD []] =
        pre ++ .dir d files :: post := hsplit
    exact directory_last hlast

/-- The second is not. -/
theorem not_represents_fullDirectory : ¬
    (TarVolume.construct fullDirectory [] fun _ _ ↦ 0).Represents
    [.dir directoryD [fileInD]] := by
  have h : LaidOut fullDirectory.bytes fullDirectory.blockCount 0
      ([.dir directoryD [fileInD]].flatMap TarItem.entries) :=
    TarImage.laidOut_written [(directoryD, noByte), (fileInD, oneByte)] 2 (by decide) (by decide)
  have hentries : [TarItem.dir directoryD [fileInD]].flatMap TarItem.entries =
      [] ++ directoryD :: fileInD :: [] := rfl
  exact not_represents h hentries (fun _ hf ↦ nomatch hf) directory_directoryD [] _

end Tar

end Borrrdex
