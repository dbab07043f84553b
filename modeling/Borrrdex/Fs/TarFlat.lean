import Borrrdex.Fs.DotNames
import Borrrdex.Fs.TarRead
import Borrrdex.Fs.TarWalk

/-!
# Archives of files

An archive is a list of entries: a header for each, its data in whole blocks behind, and blocks of
nulls at the end (`LaidOut`).

`flat_archive` is about an archive of files in the root alone.  There is a node for each file, in
the order of the archive, and looking up a name gives the first file that has it.  The second pass
is at the files one after the other (`secondPass_files`): taking a name apart that has no slash
changes nothing, so that it still finds the sizes that the first pass found.
-/

set_option autoImplicit false

namespace Borrrdex

namespace Tar

/-! ## Layout -/

/-- An entry of an archive: its name, with the directories on the way, its type and its data. -/
structure TarEntry where
  name : List Byte
  type : Byte
  data : List Byte
  name_ne_zero : ∀ c ∈ name, c ≠ 0
  name_ne_nil : name ≠ []
  name_length : name.length ≤ 99

/-- A number in octal, as the characters of its digits. -/
def octal (digits : List (Fin 8)) : List Byte := digits.map fun d : Fin 8 ↦ 0x30 + BitVec.ofNat 8 d

/-- The number that these digits are. -/
def octalValue (digits : List (Fin 8)) : ℕ := digits.foldl (fun (n : ℕ) (d : Fin 8) ↦ 8 * n + d) 0

/-- Block `i` is the header of an entry, and its data comes behind.  The name and the size end in a
null. -/
structure EntryAt (bytes : List Byte) (i : ℕ) (f : TarEntry) : Prop where
  name : f.name ++ [0] <+: bytes.drop (512 * i)
  type : bytes[512 * i + 156]? = some f.type
  size : ∃ digits : List (Fin 8), digits.length ≤ 11 ∧ octalValue digits = f.data.length ∧
    octal digits ++ [0] <+: bytes.drop (512 * i + 124)
  data : f.data <+: bytes.drop (512 * (i + 1))

/-- How many blocks an entry takes. -/
def TarEntry.blocks (f : TarEntry) : ℕ := getBlockCount f.data.length + 1

/-- The entries are in the blocks from `i` on, one behind the other, and the others are null. -/
def LaidOut (bytes : List Byte) (blockCount : ℕ) : ℕ → List TarEntry → Prop
  | i, [] => i ≤ blockCount ∧ ∀ p, 512 * i ≤ p → p < 512 * blockCount → bytes[p]? = some 0
  | i, f :: fs => EntryAt bytes i f ∧ LaidOut bytes blockCount (i + f.blocks) fs

/-- The blocks of the headers. -/
def headers : ℕ → List TarEntry → List ℕ
  | _, [] => []
  | i, f :: fs => i :: headers (i + f.blocks) fs

/-- The block behind the entries. -/
def behindAll (i : ℕ) (fs : List TarEntry) : ℕ := i + (fs.map TarEntry.blocks).sum

/-- A file in the root. -/
structure TarEntry.RootFile (f : TarEntry) : Prop where
  type : f.type = tarTypeFile
  no_slash : 0x2F ∉ f.name

theorem length_headers (i : ℕ) (fs : List TarEntry) : (headers i fs).length = fs.length := by
  induction fs generalizing i with
  | nil => rfl
  | cons f fs ih => rw [headers, List.length_cons, ih, List.length_cons]

theorem behindAll_cons (i : ℕ) (f : TarEntry) (fs : List TarEntry) :
    behindAll i (f :: fs) = behindAll (i + f.blocks) fs := by
  rw [behindAll, behindAll, List.map_cons, List.sum_cons, Nat.add_assoc]

theorem LaidOut.le {bytes : List Byte} {blockCount i : ℕ} {fs : List TarEntry}
    (h : LaidOut bytes blockCount i fs) : i ≤ blockCount := by
  induction fs generalizing i with
  | nil => exact h.1
  | cons f fs ih => exact (Nat.le_add_right _ _).trans (ih h.2)

theorem LaidOut.append_right {bytes : List Byte} {blockCount i : ℕ} {fs rest : List TarEntry}
    (h : LaidOut bytes blockCount i (fs ++ rest)) :
    LaidOut bytes blockCount (behindAll i fs) rest := by
  induction fs generalizing i with
  | nil => exact h
  | cons f fs ih =>
    rw [behindAll_cons]
    exact ih h.2

theorem LaidOut.lt {bytes : List Byte} {blockCount i : ℕ} {f : TarEntry} {fs : List TarEntry}
    (h : LaidOut bytes blockCount i (f :: fs)) : i < blockCount :=
  (Nat.lt_add_of_pos_right (Nat.succ_pos _)).trans_le h.2.le

/-! ## Headers -/

/-- A digit, read back. -/
theorem digit_octal : ∀ d : Fin 8, (0x30 + BitVec.ofNat 8 d : Byte) ≠ 0 ∧
    ((0x30 + BitVec.ofNat 8 d - 0x30 : Byte) &&& 7).toNat = d := by
  decide

theorem octToDecFrom_octal (digits : List (Fin 8)) (rest : List Byte) {size : ℕ}
    (hsize : digits.length < size) (n : ℕ) :
    octToDecFrom size n (octal digits ++ 0 :: rest) =
      digits.foldl (fun (n : ℕ) (d : Fin 8) ↦ 8 * n + d) n := by
  induction digits generalizing size n with
  | nil =>
    obtain ⟨size, rfl⟩ := Nat.exists_eq_add_one_of_ne_zero hsize.ne_bot
    exact if_pos rfl
  | cons d digits ih =>
    obtain ⟨size, rfl⟩ := Nat.exists_eq_add_one_of_ne_zero (Nat.ne_zero_of_lt hsize)
    have hnext : n <<< 3 ||| (d : ℕ) = 8 * n + d := by
      rw [← Nat.shiftLeft_add_eq_or_of_lt d.isLt, Nat.shiftLeft_eq, Nat.mul_comm]
    rw [octal, List.map_cons, List.cons_append, octToDecFrom, if_neg (digit_octal d).1,
      (digit_octal d).2, hnext, List.foldl_cons]
    exact ih (Nat.lt_of_succ_lt_succ hsize) _

namespace EntryAt

variable {bytes : List Byte} {i : ℕ} {f : TarEntry} (h : EntryAt bytes i f)

include h

theorem nameAt : Tar.nameAt bytes i = f.name := by
  obtain ⟨rest, hrest⟩ := h.name
  rw [Tar.nameAt, ← hrest, List.append_assoc]
  exact cString_append_cons_zero f.name_ne_zero rest

theorem typeAt : Tar.typeAt bytes i = f.type := by
  rw [Tar.typeAt, List.getD_eq_getElem?_getD, h.type, Option.getD_some]

theorem sizeAt : Tar.sizeAt bytes i = f.data.length := by
  obtain ⟨digits, hlen, hvalue, rest, hrest⟩ := h.size
  rw [Tar.sizeAt, octToDec, ← hrest, List.append_assoc, List.singleton_append,
    octToDecFrom_octal digits rest (Nat.lt_succ_of_le hlen)]
  exact hvalue

theorem next : i + blocksAt bytes i + 1 = i + f.blocks := by
  rw [blocksAt, h.sizeAt, TarEntry.blocks, Nat.add_assoc]

/-- The copy of a header that the first pass looks at has the name. -/
theorem copy (behind : List Byte) :
    cString ((bytes.drop (512 * i)).take 512 ++ behind) = f.name := by
  obtain ⟨rest, hrest⟩ := h.name
  have hlen := f.name_length
  rw [← hrest, List.append_assoc, List.take_append, List.take_of_length_le (by omega),
    List.append_assoc, List.singleton_append]
  obtain ⟨k, hk⟩ : ∃ k, 512 - f.name.length = k + 1 :=
    Nat.exists_eq_add_one_of_ne_zero (by omega)
  rw [hk, List.take_succ_cons, List.cons_append]
  exact cString_append_cons_zero f.name_ne_zero _

theorem countsAtRoot (hf : f.RootFile) (behind : List Byte) :
    Tar.countsAtRoot bytes behind i = true := by
  have hnone : f.name.findIdx? (· == 0x2F) = none := by
    rw [List.findIdx?_eq_none_iff]
    exact fun c hc ↦ beq_false_of_ne fun hslash ↦ hf.no_slash (hslash ▸ hc)
  rw [Tar.countsAtRoot, h.copy, hnone]

end EntryAt

/-! ## Writing archives -/

/-- A header with a name, a size and a type, and nulls. -/
def tarHeader (name size : List Byte) (type : Byte) : List Byte :=
  (name ++ List.replicate (124 - name.length) 0) ++
    ((size ++ List.replicate (32 - size.length) 0) ++ type :: List.replicate 355 0)

/-- An entry, with its size in these digits. -/
def tarBlocks (f : TarEntry) (digits : List (Fin 8)) : List Byte :=
  tarHeader f.name (octal digits) f.type ++
    (f.data ++ List.replicate (512 * getBlockCount f.data.length - f.data.length) 0)

/-- An archive, without the nulls at its end. -/
def tarBytes : List (TarEntry × List (Fin 8)) → List Byte
  | [] => []
  | p :: ps => tarBlocks p.1 p.2 ++ tarBytes ps

/-- Digits that are the size of an entry, and fit its header. -/
def SizeIn (f : TarEntry) (digits : List (Fin 8)) : Prop :=
  digits.length ≤ 11 ∧ octalValue digits = f.data.length

instance (f : TarEntry) (digits : List (Fin 8)) : Decidable (SizeIn f digits) :=
  inferInstanceAs (Decidable (_ ∧ _))

section Writing

variable {f : TarEntry} {digits : List (Fin 8)}

/-- A field that is filled up with nulls. -/
theorem prefix_field (w rest : List Byte) {n : ℕ} (hn : w.length < n) :
    w ++ [0] <+: (w ++ List.replicate (n - w.length) 0) ++ rest := by
  obtain ⟨k, hk⟩ : ∃ k, n - w.length = k + 1 := Nat.exists_eq_add_one_of_ne_zero (by omega)
  rw [hk, List.replicate_succ, List.append_assoc]
  exact List.prefix_append_right_inj w |>.mpr ⟨_, rfl⟩

theorem length_nameField : (f.name ++ List.replicate (124 - f.name.length) (0 : Byte)).length =
    124 := by
  have hlen := f.name_length
  rw [List.length_append, List.length_replicate]
  omega

theorem length_sizeField (hdigits : digits.length ≤ 11) :
    (octal digits ++ List.replicate (32 - (octal digits).length) (0 : Byte)).length = 32 := by
  rw [List.length_append, List.length_replicate, octal, List.length_map]
  omega

theorem length_tarHeader (hdigits : digits.length ≤ 11) :
    (tarHeader f.name (octal digits) f.type).length = 512 := by
  rw [tarHeader, List.length_append, length_nameField, List.length_append,
    length_sizeField hdigits, List.length_cons, List.length_replicate]

theorem length_tarBlocks (hdigits : digits.length ≤ 11) :
    (tarBlocks f digits).length = 512 * f.blocks := by
  have hround : f.data.length ≤ 512 * getBlockCount f.data.length := by
    rw [getBlockCount]
    omega
  rw [tarBlocks, List.length_append, length_tarHeader hdigits, List.length_append,
    List.length_replicate, TarEntry.blocks]
  omega

/-- **What is written is read**: a header, at the block it is in. -/
theorem entryAt_tarBlocks (h : SizeIn f digits) {pre rest : List Byte} {i : ℕ}
    (hpre : pre.length = 512 * i) : EntryAt (pre ++ (tarBlocks f digits ++ rest)) i f := by
  have hlen := f.name_length
  have hdrop : ∀ k, (pre ++ (tarBlocks f digits ++ rest)).drop (512 * i + k) =
      (tarBlocks f digits ++ rest).drop k := fun k ↦ by
    rw [← hpre, List.drop_length_add_append]
  refine ⟨?_, ?_, ⟨digits, h.1, h.2, ?_⟩, ?_⟩
  · rw [← Nat.add_zero (512 * i), hdrop, List.drop_zero, tarBlocks, tarHeader, List.append_assoc,
      List.append_assoc]
    exact prefix_field f.name _ (by omega)
  · rw [← List.head?_drop, hdrop, show 156 = 124 + 32 from rfl, ← List.drop_drop, tarBlocks,
      tarHeader, List.append_assoc, List.append_assoc,
      List.drop_left' length_nameField, List.append_assoc, List.drop_left' (length_sizeField h.1)]
    rfl
  · rw [hdrop, tarBlocks, tarHeader, List.append_assoc, List.append_assoc,
      List.drop_left' length_nameField, List.append_assoc]
    refine prefix_field _ _ ?_
    rw [octal, List.length_map]
    exact h.1.trans_lt (by decide)
  · rw [Nat.mul_succ, hdrop, tarBlocks, List.append_assoc, List.drop_left' (length_tarHeader h.1),
      List.append_assoc]
    exact List.prefix_append _ _

/-- An archive is laid out as it is written. -/
theorem laidOut_tarBytes {ps : List (TarEntry × List (Fin 8))} (h : ∀ p ∈ ps, SizeIn p.1 p.2)
    (nulls : ℕ) {pre : List Byte} {i : ℕ} (hpre : pre.length = 512 * i) :
    LaidOut (pre ++ (tarBytes ps ++ List.replicate (512 * nulls) 0))
      (behindAll i (ps.map Prod.fst) + nulls) i (ps.map Prod.fst) := by
  induction ps generalizing pre i with
  | nil =>
    refine ⟨Nat.le_add_right _ _, fun p hp hlt ↦ ?_⟩
    have hlt : p < 512 * (i + nulls) := hlt
    rw [tarBytes, List.nil_append, List.getElem?_append_right (hpre.trans_le hp),
      List.getElem?_replicate, if_pos (by omega)]
  | cons p ps ih =>
    have hp := h p List.mem_cons_self
    have hpre' : (pre ++ tarBlocks p.1 p.2).length = 512 * (i + p.1.blocks) := by
      rw [List.length_append, hpre, length_tarBlocks hp.1, Nat.mul_add]
    have hrest := ih (fun q hq ↦ h q (List.mem_cons_of_mem _ hq)) hpre'
    rw [tarBytes, List.append_assoc, List.map_cons, behindAll_cons]
    refine ⟨entryAt_tarBlocks hp hpre, ?_⟩
    rwa [List.append_assoc] at hrest

theorem length_tarBytes {ps : List (TarEntry × List (Fin 8))} (h : ∀ p ∈ ps, SizeIn p.1 p.2) :
    (tarBytes ps).length = 512 * behindAll 0 (ps.map Prod.fst) := by
  induction ps with
  | nil => rfl
  | cons p ps ih =>
    rw [tarBytes, List.length_append, length_tarBlocks (h p List.mem_cons_self).1,
      ih fun q hq ↦ h q (List.mem_cons_of_mem _ hq), behindAll, behindAll, List.map_cons,
      List.map_cons, List.sum_cons, Nat.zero_add, Nat.zero_add, Nat.mul_add]

end Writing

/-- An archive that has been written, with blocks of nulls at its end. -/
def TarImage.written (ps : List (TarEntry × List (Fin 8))) (nulls : ℕ)
    (h : ∀ p ∈ ps, SizeIn p.1 p.2)
    (hsize : 512 * (behindAll 0 (ps.map Prod.fst) + nulls) ≤ 0x80000000) : TarImage where
  bytes := tarBytes ps ++ List.replicate (512 * nulls) 0
  size := 512 * (behindAll 0 (ps.map Prod.fst) + nulls)
  size_le_length := by
    rw [List.length_append, length_tarBytes h, List.length_replicate, Nat.mul_add]
  size_le := hsize

theorem TarImage.laidOut_written (ps : List (TarEntry × List (Fin 8))) (nulls : ℕ)
    (h : ∀ p ∈ ps, SizeIn p.1 p.2)
    (hsize : 512 * (behindAll 0 (ps.map Prod.fst) + nulls) ≤ 0x80000000) :
    LaidOut (written ps nulls h hsize).bytes (written ps nulls h hsize).blockCount 0
      (ps.map Prod.fst) := by
  have hcount : (written ps nulls h hsize).blockCount =
      behindAll 0 (ps.map Prod.fst) + nulls := Nat.mul_div_cancel_left _ (by decide)
  rw [hcount]
  exact laidOut_tarBytes h nulls (show ([] : List Byte).length = 512 * 0 from rfl)

/-! ## The passes -/

section Passes

variable {bytes : List Byte} {blockCount capacity : ℕ}

/-- The first pass counts every file. -/
theorem firstPass_files (behind : List Byte) {fs : List TarEntry} (hfs : ∀ f ∈ fs, f.RootFile)
    {i : ℕ} (h : LaidOut bytes blockCount i fs) (c : Counts) :
    c.nodeCount + fs.length ≤ (firstPass blockCount bytes behind i c).nodeCount ∧
    c.entryCount + fs.length ≤ (firstPass blockCount bytes behind i c).entryCount := by
  induction fs generalizing i c with
  | nil => exact firstPass_le
  | cons f fs ih =>
    have hrest := ih (fun g hg ↦ hfs g (List.mem_cons_of_mem _ hg)) h.2
      ⟨c.nodeCount + 1, c.entryCount + 1, i :: c.blocksRead⟩
    rw [firstPass, dif_pos h.lt, h.1.next,
      if_pos (h.1.countsAtRoot (hfs f List.mem_cons_self) behind)]
    dsimp only at hrest
    rw [List.length_cons]
    omega

/-- The second pass so far: the nodes that have been made, for the headers in `blocks`, and the
children of the root, in an array of size `capacity`. -/
structure NodesMade (bytes : List Byte) (blockCount capacity : ℕ) (blocks : List ℕ) (s : TarState) :
    Prop where
  nextNode : s.nextNode = blocks.length + 1
  inodes : s.inodes.reverse = List.range' 1 blocks.length
  flags : (s.nodes 0).flags = fsNodeDirectory
  capacity : (s.nodes 0).children.capacity = capacity
  children : ∀ k < blocks.length, (s.nodes 0).children.get k = k + 1
  node : ∀ k i, blocks[k]? = some i → (s.nodes (k + 1)).MadeFrom bytes i (k + 1) 0
  header : ∀ k i, (s.nodes k).header = some i → i ∈ blocks
  entryCount : ∀ k ≠ 0, (s.nodes k).entryCount = 0
  blocksRead : ∀ b ∈ s.blocksRead, b < blockCount

/-- They are files, so that memory is as it was. -/
structure FilesAdded (bytes : List Byte) (blockCount capacity : ℕ) (blocks : List ℕ)
    (s : TarState) :
    Prop extends NodesMade bytes blockCount capacity blocks s where
  mem : s.mem = bytes

/-- A node is made, and stored in the next child of the root. -/
theorem NodesMade.add {blocks : List ℕ} {s s' : TarState}
    (h : NodesMade bytes blockCount capacity blocks s) {i : ℕ}
    (hnextNode : s'.nextNode = s.nextNode + 1) (hinodes : s'.inodes = s.nextNode :: s.inodes)
    (hroot : s'.nodes 0 =
      { s.nodes 0 with children := (s.nodes 0).children.store blocks.length s.nextNode })
    (hmade : (s'.nodes s.nextNode).MadeFrom bytes i s.nextNode 0)
    (hentryCount : (s'.nodes s.nextNode).entryCount = 0)
    (hother : ∀ k, k ≠ 0 → k ≠ s.nextNode → s'.nodes k = s.nodes k)
    (hread : ∀ b ∈ s'.blocksRead, b < blockCount) :
    NodesMade bytes blockCount capacity (blocks ++ [i]) s' := by
  refine ⟨?_, ?_, ?_, ?_, ?_, ?_, ?_, ?_, hread⟩
  · rw [List.length_append, List.length_singleton, ← h.nextNode, hnextNode]
  · rw [hinodes, List.reverse_cons, h.inodes, h.nextNode, List.length_append,
      List.length_singleton, List.range'_1_concat, Nat.add_comm 1]
  · rw [hroot]
    exact h.flags
  · rw [hroot]
    exact h.capacity
  · intro k hk
    rw [hroot]
    rcases Nat.lt_succ_iff_lt_or_eq.mp (List.length_append ▸ hk) with hlt | rfl
    · exact ((s.nodes 0).children.get_store_of_ne hlt.ne _).trans (h.children k hlt)
    · exact ((s.nodes 0).children.get_store_self _ _).trans h.nextNode
  · intro k j hj
    rcases Nat.lt_trichotomy k blocks.length with hlt | rfl | hgt
    · rw [List.getElem?_append_left hlt] at hj
      rw [hother (k + 1) (Nat.succ_ne_zero k) (by rw [h.nextNode]; omega)]
      exact h.node k j hj
    · rw [List.getElem?_concat_length] at hj
      rw [← Option.some.inj hj, ← h.nextNode]
      exact hmade
    · rw [List.getElem?_eq_none (by rw [List.length_append, List.length_singleton]; omega)] at hj
      cases hj
  · intro k j hj
    by_cases hself : k = s.nextNode
    · rw [hself, hmade.header] at hj
      exact List.mem_append_right _ (List.mem_singleton.mpr (Option.some.inj hj).symm)
    · refine List.mem_append_left _ (h.header k j ?_)
      by_cases hk : k = 0
      · subst hk
        rw [hroot] at hj
        exact hj
      · rwa [hother k hk hself] at hj
  · intro k hk
    by_cases hself : k = s.nextNode
    · rw [hself, hentryCount]
    · rw [hother k hk hself, h.entryCount k hk]

theorem NodesMade.look {blocks : List ℕ} {s : TarState}
    (h : NodesMade bytes blockCount capacity blocks s) {i : ℕ} (hi : i < blockCount) :
    NodesMade bytes blockCount capacity blocks (s.look i) :=
  { h with blocksRead := List.forall_mem_cons.mpr ⟨hi, h.blocksRead⟩ }

/-- A file is added. -/
theorem FilesAdded.addFile {blocks : List ℕ} {s : TarState}
    (h : FilesAdded bytes blockCount capacity blocks s) {i : ℕ} (hi : i < blockCount)
    (hname : 0x2F ∉ nameAt bytes i) :
    FilesAdded bytes blockCount capacity (blocks ++ [i]) (s.addFile i blocks.length) := by
  have hne : s.nextNode ≠ 0 := h.nextNode ▸ Nat.succ_ne_zero _
  have hroot : (s.addFile i blocks.length).nodes 0 =
      { s.nodes 0 with children := (s.nodes 0).children.store blocks.length s.nextNode } := by
    rw [TarState.addFile, TarState.store, TarState.update_nodes_self,
      TarState.makeNode_nodes_of_ne _ _ _ hne.symm]
    rfl
  have hnode : (s.addFile i blocks.length).nodes s.nextNode =
      ((s.look i).takeNode.2.makeNode i s.nextNode 0).nodes s.nextNode :=
    TarState.store_nodes_of_ne _ _ _ hne
  have hother : ∀ k, k ≠ 0 → k ≠ s.nextNode →
      (s.addFile i blocks.length).nodes k = s.nodes k := fun k hk hk' ↦
    (TarState.store_nodes_of_ne _ _ _ hk).trans (TarState.makeNode_nodes_of_ne _ _ _ hk')
  have hmade : ((s.addFile i blocks.length).nodes s.nextNode).MadeFrom bytes i s.nextNode 0 := by
    rw [hnode, ← h.mem]
    exact TarState.makeNode_made _ i s.nextNode 0
  have hentryCount : ((s.addFile i blocks.length).nodes s.nextNode).entryCount = 0 := by
    rw [hnode, TarState.makeNode, TarState.update_nodes_self]
    exact h.entryCount _ hne
  exact ⟨h.add rfl rfl hroot hmade hentryCount hother
    (List.forall_mem_cons.mpr ⟨hi, List.forall_mem_cons.mpr ⟨hi, h.blocksRead⟩⟩),
    (congrArg (cut · i) h.mem).trans (cut_of_no_slash hname)⟩

/-- **The second pass goes from file to file.** -/
theorem secondPass_files (stale : ℕ → ℕ → ℕ) {fs rest : List TarEntry}
    (hfs : ∀ f ∈ fs, f.RootFile) {i : ℕ} (h : LaidOut bytes blockCount i (fs ++ rest))
    {blocks : List ℕ} {s : TarState} (hs : FilesAdded bytes blockCount capacity blocks s) :
    ∃ s', secondPass blockCount stale i blocks.length s =
        secondPass blockCount stale (behindAll i fs) (blocks ++ headers i fs).length s' ∧
      FilesAdded bytes blockCount capacity (blocks ++ headers i fs) s' := by
  induction fs generalizing i blocks s with
  | nil => exact ⟨s, by rw [headers, List.append_nil]; rfl, by rwa [headers, List.append_nil]⟩
  | cons f fs ih =>
    have hf := hfs f List.mem_cons_self
    have hname : nameAt s.mem i = f.name := hs.mem ▸ h.1.nameAt
    have htype : typeAt s.mem i = tarTypeFile := by
      rw [hs.mem, h.1.typeAt, hf.type]
    have hnext : i + blocksAt s.mem i + 1 = i + f.blocks := by
      rw [hs.mem, h.1.next]
    have hadded := hs.addFile h.lt (h.1.nameAt ▸ hf.no_slash)
    obtain ⟨s', hpass, hs'⟩ := ih (fun g hg ↦ hfs g (List.mem_cons_of_mem _ hg)) h.2 hadded
    refine ⟨s', ?_, ?_⟩
    · rw [secondPass_file h.lt (hname ▸ f.name_ne_nil) htype, hnext, behindAll_cons, headers,
        ← List.singleton_append, ← List.append_assoc, ← hpass, List.length_append,
        List.length_singleton]
    · rw [headers, ← List.singleton_append, ← List.append_assoc]
      exact hs'

theorem nameAt_of_null {mem : List Byte} {i : ℕ} (h : mem[512 * i]? = some 0) :
    nameAt mem i = [] := by
  rw [← List.head?_drop] at h
  obtain ⟨rest, hrest⟩ := List.head?_eq_some_iff.mp h
  rw [nameAt, hrest]
  rfl

/-- At the blocks of nulls it stops. -/
theorem secondPass_nulls (stale : ℕ → ℕ → ℕ) {i : ℕ} (h : LaidOut bytes blockCount i [])
    {blocks : List ℕ} {s : TarState} (hs : FilesAdded bytes blockCount capacity blocks s) (e : ℕ) :
    ∃ s', secondPass blockCount stale i e s = (e, s') ∧
      FilesAdded bytes blockCount capacity blocks s' := by
  rcases Nat.lt_or_ge i blockCount with hi | hi
  · have hnull : nameAt s.mem i = [] := nameAt_of_null (by rw [hs.mem, h.2 _ le_rfl (by omega)])
    exact ⟨_, secondPass_end hi hnull, hs.toNodesMade.look hi, hs.mem⟩
  · exact ⟨s, secondPass_of_le hi, hs⟩

end Passes

/-! ## The volume -/

/-- The volume as the constructor starts on the second pass. -/
theorem filesAdded_nil (image : TarImage) (stale : ℕ → ℕ) (counts : Counts)
    (hread : ∀ b ∈ counts.blocksRead, b < image.blockCount) :
    FilesAdded image.bytes image.blockCount counts.entryCount []
      { mem := image.bytes
        nodes := Function.update (fun _ ↦ TarNode.fresh) 0
          (volumeNode image counts.entryCount stale)
        nextNode := 1
        blocksRead := counts.blocksRead
        inodes := [] } where
  mem := rfl
  nextNode := rfl
  inodes := rfl
  flags := rfl
  capacity := rfl
  children k hk := absurd hk (Nat.not_lt_zero k)
  node k i hi := by cases hi
  header k i hi := by
    dsimp only at hi
    by_cases hk : k = 0
    · rw [hk, Function.update_self] at hi
      cases hi
    · rw [Function.update_of_ne hk] at hi
      cases hi
  entryCount k hk := by
    dsimp only
    rw [Function.update_of_ne hk]
    rfl
  blocksRead := hread

/-- What the constructor makes of the entries that come before `rest`. -/
theorem construct_files {image : TarImage} {fs rest : List TarEntry}
    (hfs : ∀ f ∈ fs, f.RootFile) (h : LaidOut image.bytes image.blockCount 0 (fs ++ rest))
    (behind : List Byte) (stale : ℕ → ℕ → ℕ) :
    ∃ s capacity, (TarVolume.construct image behind stale).state =
        (fun r : ℕ × TarState ↦ r.2.update 0 fun n ↦ { n with entryCount := r.1 })
          (secondPass image.blockCount stale (behindAll 0 fs) fs.length s) ∧
      FilesAdded image.bytes image.blockCount capacity (headers 0 fs) s ∧
      capacity = (firstPass image.blockCount image.bytes behind 0 ⟨1, 0, []⟩).entryCount := by
  have hstart := filesAdded_nil image (stale 0)
    (firstPass image.blockCount image.bytes behind 0 ⟨1, 0, []⟩)
    (firstPass_blocksRead fun b hb ↦ absurd hb List.not_mem_nil)
  obtain ⟨s, hpass, hs⟩ := secondPass_files stale hfs h hstart
  refine ⟨s, _, ?_, hs, rfl⟩
  rw [List.nil_append, length_headers] at hpass
  rw [← hpass]
  rfl

/-- The volume, when the second pass has made these nodes. -/
theorem NodesMade.children_root {bytes : List Byte} {blockCount capacity : ℕ} {blocks : List ℕ}
    {s : TarState} (h : NodesMade bytes blockCount capacity blocks s) {v : TarVolume}
    (hv : v.state = s.update 0 fun n ↦ { n with entryCount := blocks.length }) :
    v.children 0 = List.range' 1 blocks.length := by
  have hroot : v.node 0 = { s.nodes 0 with entryCount := blocks.length } := by
    rw [TarVolume.node, hv, TarState.update_nodes_self]
  rw [TarVolume.children, hroot, List.range'_eq_map_range]
  refine List.map_congr_left fun k hk ↦ ?_
  rw [h.children k (List.mem_range.mp hk), Nat.add_comm]

/-- The data of a node that has been made for an entry. -/
theorem data_of_made {v : TarVolume} {inode i : ℕ} {f : TarEntry} {bytes : List Byte}
    (h : EntryAt bytes i f) (hmem : v.state.mem = bytes)
    (hheader : (v.node inode).header = some i) (hsize : (v.node inode).size = f.data.length) :
    v.data inode = f.data := by
  obtain ⟨rest, hrest⟩ := h.data
  refine List.ext_getElem? fun k ↦ ?_
  rw [TarVolume.data, hsize, hheader, hmem, List.getElem?_map]
  rcases Nat.lt_or_ge k f.data.length with hk | hk
  · have hget : bytes[512 * i + 512 + k]? = f.data[k]? := by
      rw [show 512 * i + 512 + k = 512 * (i + 1) + k by ring, ← List.getElem?_drop, ← hrest,
        List.getElem?_append_left hk]
    rw [List.getElem?_range hk, Option.map_some, Option.getD_some, List.getD_eq_getElem?_getD,
      hget, List.getElem?_eq_getElem hk, Option.getD_some]
  · rw [List.getElem?_eq_none (by rwa [List.length_range]), List.getElem?_eq_none hk,
      Option.map_none]

/-- The entries of an archive are where their headers are. -/
theorem LaidOut.entryAt {bytes : List Byte} {blockCount i : ℕ} {fs : List TarEntry}
    (h : LaidOut bytes blockCount i fs) {k : ℕ} (hk : k < fs.length) :
    ∃ b, (headers i fs)[k]? = some b ∧ EntryAt bytes b fs[k] := by
  induction fs generalizing i k with
  | nil => exact absurd hk (Nat.not_lt_zero k)
  | cons f fs ih =>
    cases k with
    | zero => exact ⟨i, rfl, h.1⟩
    | succ k => exact ih h.2 (Nat.lt_of_succ_lt_succ hk)

/-- A search among numbers that stand for the elements of a list. -/
theorem find?_range' {α : Type} {l : List α} {a : ℕ} {p : ℕ → Bool} {q : α → Bool}
    (h : ∀ k (hk : k < l.length), p (a + k) = q l[k]) :
    (List.range' a l.length).find? p = (l.findIdx? q).map fun k ↦ k + a := by
  induction l generalizing a with
  | nil => rfl
  | cons x l ih =>
    have hrest := ih (a := a + 1) fun k hk ↦ by
      rw [Nat.add_right_comm]
      exact h (k + 1) (Nat.succ_lt_succ hk)
    have hhead : p a = q x := h 0 (Nat.succ_pos _)
    rw [List.length_cons, List.range'_succ, List.findIdx?_cons]
    by_cases hx : q x = true
    · rw [List.find?_cons_of_pos (hhead.trans hx), if_pos hx, Option.map_some, Nat.zero_add]
    · rw [List.find?_cons_of_neg (fun hp ↦ hx (hhead.symm.trans hp)), hrest, if_neg hx,
        Option.map_map]
      refine congrArg (Option.map · _) (funext fun k ↦ ?_)
      exact (Nat.add_right_comm k 1 a).symm

/-- **Archives of files.**  The constructor reads whole blocks of the archive and leaves it as it
is; it makes a node for each file, in the order of the archive and in the memory there is, and these
are the children of the root.  Each has the name, the size and the data of its file, and looking up
a name gives the first file with that name. -/
theorem flat_archive {image : TarImage} {files : List TarEntry}
    (h : LaidOut image.bytes image.blockCount 0 files) (hfiles : ∀ f ∈ files, f.RootFile)
    (behind : List Byte) (stale : ℕ → ℕ → ℕ) :
    let v := TarVolume.construct image behind stale
    (∀ b ∈ v.state.blocksRead, b < image.blockCount) ∧
    v.state.mem = image.bytes ∧
    v.state.inodes.reverse = List.range' 1 files.length ∧
    v.state.nextNode = files.length + 1 ∧ files.length + 1 ≤ v.nodeCount ∧
    v.children 0 = List.range' 1 files.length ∧
    files.length ≤ (v.node 0).children.capacity ∧
    (∀ k (hk : k < files.length), (v.node (k + 1)).name = files[k].name ∧
      (v.node (k + 1)).header = (headers 0 files)[k]? ∧ (v.node (k + 1)).parent = 0 ∧
      (v.node (k + 1)).isDir = false ∧ (v.node (k + 1)).size = files[k].data.length ∧
      v.data (k + 1) = files[k].data) ∧
    ∀ name, (∀ c ∈ name, c ≠ 0) → name.head? ≠ some 0x2E →
      v.findDir 0 name = (files.findIdx? fun f ↦ f.name = name).map fun k ↦ .node (k + 1) := by
  intro v
  have hnil : LaidOut image.bytes image.blockCount 0 (files ++ []) := by rwa [List.append_nil]
  obtain ⟨s, capacity, hconstruct, hs, hcapacity⟩ := construct_files hfiles hnil behind stale
  obtain ⟨s', hpass, hs'⟩ := secondPass_nulls stale hnil.append_right hs files.length
  have hcounts := firstPass_files behind hfiles h ⟨1, 0, []⟩
  have hlen := length_headers 0 files
  have hstate : v.state = s'.update 0 fun n ↦ { n with entryCount := files.length } :=
    hconstruct.trans (by rw [hpass])
  have hroot : v.node 0 = { s'.nodes 0 with entryCount := files.length } := by
    rw [TarVolume.node, hstate, TarState.update_nodes_self]
  have hnode : ∀ k, v.node (k + 1) = s'.nodes (k + 1) := fun k ↦ by
    rw [TarVolume.node, hstate, TarState.update_nodes_of_ne _ (Nat.succ_ne_zero k)]
  have hmem : v.state.mem = image.bytes := by
    rw [hstate, TarState.update_mem, hs'.mem]
  have hmade : ∀ k (hk : k < files.length), (v.node (k + 1)).name = files[k].name ∧
      (v.node (k + 1)).header = (headers 0 files)[k]? ∧ (v.node (k + 1)).parent = 0 ∧
      (v.node (k + 1)).isDir = false ∧ (v.node (k + 1)).size = files[k].data.length ∧
      v.data (k + 1) = files[k].data := by
    intro k hk
    obtain ⟨b, hb, hentry⟩ := h.entryAt hk
    have hfile := hfiles _ (List.getElem_mem hk)
    have hn := hs'.node k b hb
    rw [← hnode] at hn
    have hslash : 0x2F ∉ nameAt image.bytes b := hentry.nameAt ▸ hfile.no_slash
    have hsize : (v.node (k + 1)).size = files[k].data.length := by
      rw [hn.size, cut_of_no_slash hslash, hentry.sizeAt]
    refine ⟨?_, hn.header.trans hb.symm, hn.parent, ?_, hsize,
      data_of_made hentry hmem hn.header hsize⟩
    · rw [hn.name, partAt_of_no_slash hslash, hentry.nameAt,
        List.take_of_length_le (files[k].name_length.trans (by decide))]
    · rw [TarNode.isDir, hn.flags, hentry.typeAt, hfile.type]
      decide
  have hchildren : v.children 0 = List.range' 1 files.length := by
    rw [hs'.children_root (hlen.symm ▸ hstate), hlen]
  refine ⟨?_, hmem, ?_, ?_, ?_, hchildren, ?_, hmade, fun name hname hhead ↦ ?_⟩
  · rw [hstate]
    exact hs'.blocksRead
  · rw [hstate]
    exact hs'.inodes.trans (by rw [hlen])
  · rw [hstate, TarState.update_nextNode, hs'.nextNode, hlen]
  · exact (Nat.add_comm _ _).trans_le hcounts.1
  · rw [hroot, hs'.capacity, hcapacity]
    exact (Nat.zero_add _).symm.trans_le hcounts.2
  · have hdir : (v.node 0).isDir = true := by
      rw [hroot]
      exact decide_eq_true (by rw [hs'.flags]; rfl)
    -- names are shorter than what is compared
    have hfull : ∀ child ∈ v.children 0, (v.node child).name.take 256 = name.take 256 →
        (v.node child).name = name := by
      intro child hchild htake
      rw [hchildren, List.mem_range'_1] at hchild
      obtain ⟨k, rfl⟩ : ∃ k, child = k + 1 := ⟨child - 1, by omega⟩
      have hk : k < files.length := by omega
      have hlength := files[k].name_length
      rw [(hmade k hk).1, List.take_of_length_le (by omega)] at htake
      have htaken : (name.take 256).length ≤ 99 := htake ▸ hlength
      rw [(hmade k hk).1, htake]
      exact List.take_of_length_le (by rw [List.length_take] at htaken; omega)
    have hfind : v.findDir 0 name = v.named 0 name :=
      (TarVolume.tarFindDir_iff hdir hname).mpr (.inr (.inr ⟨hhead, fun child hfound ↦ by
        have htest := List.find?_some hfound
        exact hfull child (List.mem_of_find?_eq_some hfound) (of_decide_eq_true htest)⟩))
    have hdots : name ≠ dot ∧ name ≠ dotDot :=
      ⟨fun h ↦ hhead (head?_of_dots (.inl h)), fun h ↦ hhead (head?_of_dots (.inr h))⟩
    have hsearch := find?_range' (l := files) (a := 1)
      (p := fun child ↦ (v.node child).name = name) (q := fun f ↦ f.name = name) fun k hk ↦ by
        rw [Nat.add_comm 1, (hmade k hk).1]
    rw [hfind, TarVolume.named, if_neg hdots.1, if_neg hdots.2, hchildren, hsearch, Option.map_map]
    rfl

theorem nameA_ne_zero : ∀ c ∈ ([0x61] : List Byte), c ≠ 0 := by decide

/-- A file `a` with one byte. -/
def fileA : TarEntry := ⟨[0x61], tarTypeFile, [0x78], nameA_ne_zero, by decide, by decide⟩

/-- An empty file `b`. -/
def fileB : TarEntry := ⟨[0x62], tarTypeFile, [], by decide, by decide, by decide⟩

/-- The sizes of the two in octal. -/
def oneByte : List (Fin 8) := [1]

def noByte : List (Fin 8) := [0]

/-- An archive of these two, and two blocks of nulls. -/
def twoFiles : TarImage := .written [(fileA, oneByte), (fileB, noByte)] 2 (by decide) (by decide)

/-- Both are there. -/
theorem flat_archive_twoFiles :
    let v := TarVolume.construct twoFiles [] fun _ _ ↦ 0
    v.children 0 = [1, 2] ∧ v.data 1 = [0x78] ∧ v.findDir 0 [0x61] = some (.node 1) ∧
      v.findDir 0 [0x62] = some (.node 2) ∧ v.findDir 0 [0x63] = none := by
  intro v
  have h : LaidOut twoFiles.bytes twoFiles.blockCount 0 [fileA, fileB] :=
    TarImage.laidOut_written [(fileA, oneByte), (fileB, noByte)] 2 (by decide) (by decide)
  have hfiles : ∀ f ∈ [fileA, fileB], f.RootFile := by
    intro f hf
    rcases List.mem_pair.mp hf with rfl | rfl
    · exact ⟨rfl, by decide⟩
    · exact ⟨rfl, by decide⟩
  obtain ⟨-, -, -, -, -, hchildren, -, hnodes, hfind⟩ := flat_archive h hfiles [] fun _ _ ↦ 0
  exact ⟨hchildren, (hnodes 0 (by decide)).2.2.2.2.2, hfind [0x61] (by decide) (by decide),
    hfind [0x62] (by decide) (by decide), hfind [0x63] (by decide) (by decide)⟩

end Tar

end Borrrdex
