import Borrrdex.Fs.Tar

/-!
# The two passes over an archive

What the rest says about archives rests on three things: `make_node` writes nothing but nulls over
characters of the name (`getElem?_cut`); the node it makes (`makeNode_made`); and where each pass
goes from a header, one equation for each kind of header.
-/

set_option autoImplicit false

namespace Borrrdex

namespace Tar

/-! ## Names taken apart -/

theorem partLoop_tokensCut {orig : List Byte} (rounds name : ℕ) {st : Strtok}
    (h : TokensCut orig st.buf st.saved) :
    ∃ saved, TokensCut orig (partLoop rounds name st).2 saved := by
  induction rounds generalizing name st with
  | zero => exact ⟨_, h⟩
  | succ rounds ih =>
    rw [partLoop]
    cases st.token with
    | none => exact ⟨_, h⟩
    | some part => exact ih part (h.strtokR slash)

/-- Taking a name apart writes nulls over some of its characters, and nothing else. -/
theorem takeApart_tokensCut (buf : List Byte) : ∃ saved, TokensCut buf (takeApart buf).2 saved :=
  partLoop_tokensCut _ _ ((TokensCut.refl buf).strtokR slash)

theorem strchr_slash_isSome {c : Byte} : (strchr slash c).isSome = true ↔ c = 0 ∨ c = 0x2F := by
  decide +revert

/-- A name with no slash is left as it is. -/
theorem takeApart_of_no_slash {buf : List Byte} (h : 0x2F ∉ cString buf) :
    takeApart buf = (0, buf) := by
  obtain ⟨pre, w, rest, hbuf, hpre, hw, -, hnext, -, hcall⟩ :=
    exists_strtokR (s := some 0) (m := none) rfl slash buf
  rw [List.drop_zero] at hbuf
  have hslash : ∀ c, (strchr slash c).isSome = true → c ≠ 0 → c = 0x2F := fun c hc hne ↦
    (strchr_slash_isSome.mp hc).resolve_left hne
  have hstring : cString buf = pre ++ (w ++ cString rest) := by
    rw [hbuf, cString_append fun x hx ↦ (hpre x hx).1, cString_append fun x hx ↦ (hw x hx).1]
  rw [hstring] at h
  obtain rfl : pre = [] := by
    refine List.eq_nil_iff_forall_not_mem.mpr fun x hx ↦ h ?_
    rw [← hslash x (hpre x hx).2 (hpre x hx).1]
    exact List.mem_append_left _ hx
  have hend : rest.headD 0 = 0 := by
    cases rest with
    | nil => rfl
    | cons c rest =>
      by_contra hne
      rw [List.headD_cons] at hne
      refine h (List.mem_append_right _ (List.mem_append_right _ ?_))
      rw [hslash c ((hnext c rest rfl).resolve_left hne) hne]
      exact List.mem_of_mem_head? rfl
  rw [takeApart, hcall, if_neg (not_not.mpr hend), partLoop]
  by_cases hnone : w = []
  · simp only [if_pos hnone]
  · simp only [if_neg hnone]
    cases buf with
    | nil => rfl
    | cons c buf => rfl

variable {mem : List Byte} {i : ℕ}

theorem length_cut : (cut mem i).length = mem.length := by
  obtain ⟨saved, h⟩ := takeApart_tokensCut (mem.drop (512 * i))
  rw [cut, List.length_append, h.length, List.length_take, List.length_drop]
  omega

theorem drop_cut_self : (cut mem i).drop (512 * i) = (takeApart (mem.drop (512 * i))).2 := by
  rcases Nat.le_total (512 * i) mem.length with hin | hout
  · exact List.drop_left' (List.length_take_of_le hin)
  · obtain ⟨saved, h⟩ := takeApart_tokensCut (mem.drop (512 * i))
    have hnil : (takeApart (mem.drop (512 * i))).2 = [] := by
      rw [← List.length_eq_zero_iff, h.length, List.length_drop, Nat.sub_eq_zero_of_le hout]
    rw [hnil, List.drop_eq_nil_iff, length_cut]
    exact hout

/-- **What `make_node` writes to memory**: nulls, over characters of the name. -/
theorem getElem?_cut (mem : List Byte) (i p : ℕ) : (cut mem i)[p]? = mem[p]? ∨
    512 * i ≤ p ∧ p < 512 * i + (nameAt mem i).length ∧ (cut mem i)[p]? = some 0 := by
  obtain ⟨saved, h⟩ := takeApart_tokensCut (mem.drop (512 * i))
  rcases Nat.lt_or_ge p (512 * i) with hp | hp
  · refine .inl ?_
    rw [cut]
    rcases Nat.lt_or_ge p mem.length with hin | hout
    · rw [List.getElem?_append_left (by rw [List.length_take]; omega), List.getElem?_take_of_lt hp]
    · rw [List.getElem?_eq_none hout, List.getElem?_eq_none]
      rw [List.length_append, List.length_take, h.length, List.length_drop]
      omega
  · rcases Nat.lt_or_ge p mem.length with hin | hout
    · have hlen : (mem.take (512 * i)).length = 512 * i := by
        rw [List.length_take]
        omega
      have hget : (cut mem i)[p]? = (takeApart (mem.drop (512 * i))).2[p - 512 * i]? := by
        rw [cut, List.getElem?_append_right (by omega), hlen]
      rw [hget]
      refine (h.same (p - 512 * i)).imp (fun hsame ↦ ?_) fun hcut ↦ ⟨hp, ?_, hcut.2⟩
      · rw [hsame, List.getElem?_drop, Nat.add_sub_cancel' hp]
      · have := hcut.1
        rw [nameAt]
        omega
    · refine .inl ?_
      rw [List.getElem?_eq_none hout, List.getElem?_eq_none (length_cut.trans_le hout)]

/-- Behind the name memory is as it was. -/
theorem drop_cut {k : ℕ} (hk : 512 * i + (nameAt mem i).length ≤ k) :
    (cut mem i).drop k = mem.drop k := by
  refine List.ext_getElem? fun p ↦ ?_
  rw [List.getElem?_drop, List.getElem?_drop]
  rcases getElem?_cut mem i (k + p) with h | ⟨-, h, -⟩
  · exact h
  · omega

/-- The size is behind a name that ends where it should. -/
theorem sizeAt_cut (h : (nameAt mem i).length ≤ 124) : sizeAt (cut mem i) i = sizeAt mem i := by
  rw [sizeAt, sizeAt, drop_cut (by omega)]

theorem cut_of_no_slash (h : 0x2F ∉ nameAt mem i) : cut mem i = mem := by
  rw [cut, takeApart_of_no_slash h, List.take_append_drop]

theorem partAt_of_no_slash (h : 0x2F ∉ nameAt mem i) : partAt mem i = (nameAt mem i).take 256 := by
  rw [partAt, takeApart_of_no_slash h]
  rfl

/-! ## States -/

namespace TarState

variable (s : TarState) (i inode parent dir e : ℕ)

@[simp] theorem update_mem (f : TarNode → TarNode) : (s.update inode f).mem = s.mem := rfl

@[simp] theorem update_nextNode (f : TarNode → TarNode) :
    (s.update inode f).nextNode = s.nextNode := rfl

@[simp] theorem update_nodes_self (f : TarNode → TarNode) :
    (s.update inode f).nodes inode = f (s.nodes inode) := Function.update_self ..

theorem update_nodes_of_ne {inode k : ℕ} (h : k ≠ inode) (f : TarNode → TarNode) :
    (s.update inode f).nodes k = s.nodes k := Function.update_of_ne h ..

@[simp] theorem look_mem : (s.look i).mem = s.mem := rfl

@[simp] theorem look_nodes : (s.look i).nodes = s.nodes := rfl

@[simp] theorem look_nextNode : (s.look i).nextNode = s.nextNode := rfl

@[simp] theorem takeNode_fst : s.takeNode.1 = s.nextNode := rfl

@[simp] theorem takeNode_mem : s.takeNode.2.mem = s.mem := rfl

@[simp] theorem takeNode_nodes : s.takeNode.2.nodes = s.nodes := rfl

@[simp] theorem takeNode_nextNode : s.takeNode.2.nextNode = s.nextNode + 1 := rfl

@[simp] theorem store_mem : (s.store dir e inode).mem = s.mem := rfl

@[simp] theorem store_nextNode : (s.store dir e inode).nextNode = s.nextNode := rfl

@[simp] theorem makeNode_mem : (s.makeNode i inode parent).mem = cut s.mem i := rfl

@[simp] theorem makeNode_nextNode : (s.makeNode i inode parent).nextNode = s.nextNode := rfl

theorem makeNode_nodes_of_ne {inode k : ℕ} (h : k ≠ inode) :
    (s.makeNode i inode parent).nodes k = s.nodes k := Function.update_of_ne h ..

theorem store_nodes_of_ne {dir k : ℕ} (h : k ≠ dir) : (s.store dir e inode).nodes k = s.nodes k :=
  s.update_nodes_of_ne h _

end TarState

/-- What `make_node` writes to a node. -/
structure TarNode.MadeFrom (n : TarNode) (mem : List Byte) (i inode parent : ℕ) : Prop where
  name : n.name = partAt mem i
  header : n.header = some i
  inode : n.inode = inode
  parent : n.parent = parent
  flags : n.flags = tarFlagsToFs (typeAt mem i)
  size : n.size = sizeAt (cut mem i) i

theorem TarState.makeNode_made (s : TarState) (i inode parent : ℕ) :
    ((s.makeNode i inode parent).nodes inode).MadeFrom s.mem i inode parent := by
  rw [TarState.makeNode, TarState.update_nodes_self]
  exact ⟨rfl, rfl, rfl, rfl, rfl, rfl⟩

/-- A slot that was stored to last. -/
theorem Children.get_store_self (c : Children) (e inode : ℕ) : (c.store e inode).get e = inode := by
  rw [get, store, List.lookup_cons_self, Option.getD_some]

theorem Children.get_store_of_ne (c : Children) {e k : ℕ} (h : k ≠ e) (inode : ℕ) :
    (c.store e inode).get k = c.get k := by
  rw [get, store, List.lookup_cons, beq_false_of_ne h]
  rfl

/-! ## The first pass -/

/-- It reads whole blocks of the archive. -/
theorem firstPass_blocksRead {blockCount : ℕ} {bytes behind : List Byte} {i : ℕ} {c : Counts}
    (h : ∀ b ∈ c.blocksRead, b < blockCount) :
    ∀ b ∈ (firstPass blockCount bytes behind i c).blocksRead, b < blockCount := by
  fun_induction firstPass blockCount bytes behind i c with
  | case1 i c hi ih => exact ih (List.forall_mem_cons.mpr ⟨hi, h⟩)
  | case2 => exact h

theorem firstPass_le {blockCount : ℕ} {bytes behind : List Byte} {i : ℕ} {c : Counts} :
    c.nodeCount ≤ (firstPass blockCount bytes behind i c).nodeCount ∧
    c.entryCount ≤ (firstPass blockCount bytes behind i c).entryCount := by
  fun_induction firstPass blockCount bytes behind i c with
  | case1 i c hi ih =>
    refine ⟨(Nat.le_succ _).trans ih.1, le_trans ?_ ih.2⟩
    dsimp only
    split
    · exact Nat.le_succ _
    · exact le_rfl
  | case2 => exact ⟨le_rfl, le_rfl⟩

/-! ## The second pass -/

/-- Nothing has been done but look at blocks of the archive. -/
structure Looked (blockCount : ℕ) (s s' : TarState) : Prop where
  mem : s'.mem = s.mem
  nodes : s'.nodes = s.nodes
  nextNode : s'.nextNode = s.nextNode
  inodes : s'.inodes = s.inodes
  blocksRead : (∀ b ∈ s.blocksRead, b < blockCount) → ∀ b ∈ s'.blocksRead, b < blockCount

theorem Looked.refl (blockCount : ℕ) (s : TarState) : Looked blockCount s s :=
  ⟨rfl, rfl, rfl, rfl, id⟩

theorem Looked.trans {blockCount : ℕ} {s t u : TarState} (h : Looked blockCount s t)
    (h' : Looked blockCount t u) : Looked blockCount s u :=
  ⟨h'.mem.trans h.mem, h'.nodes.trans h.nodes, h'.nextNode.trans h.nextNode,
    h'.inodes.trans h.inodes, fun hs ↦ h'.blocksRead (h.blocksRead hs)⟩

theorem Looked.look {blockCount i : ℕ} (s : TarState) (hi : i < blockCount) :
    Looked blockCount s (s.look i) :=
  ⟨rfl, rfl, rfl, rfl, fun hs ↦ List.forall_mem_cons.mpr ⟨hi, hs⟩⟩

theorem countEntries_looked (blockCount dir i entryCount : ℕ) (s : TarState) :
    Looked blockCount s (countEntries blockCount dir i entryCount s).2 := by
  induction hrest : blockCount - i using Nat.strong_induction_on generalizing i entryCount s with
  | _ n ih =>
    subst hrest
    rw [countEntries]
    split
    · next hi =>
      have hlook := Looked.look s hi
      dsimp only
      split
      · exact hlook
      · split
        · exact hlook
        · exact hlook.trans (ih _ (by omega) _ _ _ rfl)
    · exact Looked.refl blockCount s

/-- The directory that `read_directory` has made, when it starts on the entries. -/
def TarState.openDirectory (s : TarState) (blockCount : ℕ) (stale : ℕ → ℕ) (i : ℕ) : ℕ × TarState :=
  let c := countEntries blockCount i (i + blocksAt (cut s.mem i) i) 0
    (s.takeNode.2.makeNode i s.nextNode 0)
  (c.1, c.2.update s.nextNode fun n ↦
    { n with entryCount := c.1, children := ⟨c.1, stale, []⟩ })

/-- What that is. -/
structure Opened (blockCount : ℕ) (stale : ℕ → ℕ) (i : ℕ) (s : TarState) (t : ℕ × TarState) :
    Prop where
  mem : t.2.mem = cut s.mem i
  nextNode : t.2.nextNode = s.nextNode + 1
  inodes : t.2.inodes = s.nextNode :: s.inodes
  other : ∀ k ≠ s.nextNode, t.2.nodes k = s.nodes k
  made : (t.2.nodes s.nextNode).MadeFrom s.mem i s.nextNode 0
  entryCount : (t.2.nodes s.nextNode).entryCount = t.1
  children : (t.2.nodes s.nextNode).children = ⟨t.1, stale, []⟩
  blocksRead : (∀ b ∈ s.blocksRead, b < blockCount) → ∀ b ∈ t.2.blocksRead, b < blockCount

theorem opened_openDirectory {blockCount i : ℕ} (hi : i < blockCount) (stale : ℕ → ℕ)
    (s : TarState) : Opened blockCount stale i s (s.openDirectory blockCount stale i) := by
  have hlooked := countEntries_looked blockCount i (i + blocksAt (cut s.mem i) i) 0
    (s.takeNode.2.makeNode i s.nextNode 0)
  have hnodes : ∀ k ≠ s.nextNode, (s.openDirectory blockCount stale i).2.nodes k = s.nodes k := by
    intro k hk
    rw [TarState.openDirectory, TarState.update_nodes_of_ne _ hk, hlooked.nodes,
      TarState.makeNode_nodes_of_ne _ _ _ hk]
    rfl
  have hmade := s.takeNode.2.makeNode_made i s.nextNode 0
  rw [← hlooked.nodes] at hmade
  refine ⟨hlooked.mem, hlooked.nextNode, hlooked.inodes, hnodes, ?_, ?_, ?_, fun hread ↦ ?_⟩
  · rw [TarState.openDirectory, TarState.update_nodes_self]
    exact ⟨hmade.name, hmade.header, hmade.inode, hmade.parent, hmade.flags, hmade.size⟩
  · rw [TarState.openDirectory, TarState.update_nodes_self]
  · rw [TarState.openDirectory, TarState.update_nodes_self]
  · exact hlooked.blocksRead (List.forall_mem_cons.mpr ⟨hi, hread⟩)

theorem readDirectory_eq (blockCount : ℕ) (stale : ℕ → ℕ) (i : ℕ) (s : TarState) :
    readDirectory blockCount stale i 0 s =
      addEntries blockCount s.nextNode (s.openDirectory blockCount stale i).1
        (i + blocksAt (cut s.mem i) i + 1) 0 (s.openDirectory blockCount stale i).2 := rfl

/-- What it does with a file of the root. -/
def TarState.addFile (s : TarState) (i e : ℕ) : TarState :=
  ((s.look i).takeNode.2.makeNode i s.nextNode 0).store 0 e s.nextNode

section SecondPass

variable {blockCount : ℕ} {stale : ℕ → ℕ → ℕ} {i e : ℕ} {s : TarState}

theorem secondPass_of_le (hi : blockCount ≤ i) : secondPass blockCount stale i e s = (e, s) := by
  rw [secondPass, dif_neg (not_lt.mpr hi)]

theorem secondPass_end (hi : i < blockCount) (hname : nameAt s.mem i = []) :
    secondPass blockCount stale i e s = (e, s.look i) := by
  rw [secondPass, dif_pos hi]
  exact if_pos hname

theorem secondPass_directory (hi : i < blockCount) (hname : nameAt s.mem i ≠ [])
    (htype : typeAt s.mem i = tarTypeDirectory) :
    secondPass blockCount stale i e s =
      (fun r : ℕ × TarState ↦
        secondPass blockCount stale (r.1 + blocksAt s.mem i + 1) (e + 1) r.2)
      (readDirectory blockCount (stale s.nextNode) i 0 ((s.look i).store 0 e s.nextNode)) := by
  rw [secondPass, dif_pos hi]
  exact (if_neg hname).trans (if_pos htype)

theorem secondPass_file (hi : i < blockCount) (hname : nameAt s.mem i ≠ [])
    (htype : typeAt s.mem i = tarTypeFile) :
    secondPass blockCount stale i e s =
      secondPass blockCount stale (i + blocksAt s.mem i + 1) (e + 1) (s.addFile i e) := by
  have hdir : typeAt s.mem i ≠ tarTypeDirectory := htype ▸ by decide
  rw [secondPass, dif_pos hi]
  exact (if_neg hname).trans ((if_neg hdir).trans (if_pos htype))

theorem secondPass_other (hi : i < blockCount) (hname : nameAt s.mem i ≠ [])
    (hdir : typeAt s.mem i ≠ tarTypeDirectory) (hfile : typeAt s.mem i ≠ tarTypeFile) :
    secondPass blockCount stale i e s =
      secondPass blockCount stale (i + blocksAt s.mem i + 1) (e + 1) (s.look i) := by
  rw [secondPass, dif_pos hi]
  exact (if_neg hname).trans ((if_neg hdir).trans (if_neg hfile))

/-- What holds when the second pass starts, and is kept from each header to the next, holds when it
stops. -/
theorem secondPass_rule (inv : ℕ → ℕ → TarState → Prop) (post : ℕ × TarState → Prop)
    (hle : ∀ i e s, inv i e s → blockCount ≤ i → post (e, s))
    (hend : ∀ i e s, inv i e s → i < blockCount → nameAt s.mem i = [] → post (e, s.look i))
    (hdir : ∀ i e s, inv i e s → i < blockCount → nameAt s.mem i ≠ [] →
      typeAt s.mem i = tarTypeDirectory →
        (fun r : ℕ × TarState ↦ inv (r.1 + blocksAt s.mem i + 1) (e + 1) r.2)
          (readDirectory blockCount (stale s.nextNode) i 0 ((s.look i).store 0 e s.nextNode)))
    (hfile : ∀ i e s, inv i e s → i < blockCount → nameAt s.mem i ≠ [] →
      typeAt s.mem i = tarTypeFile → inv (i + blocksAt s.mem i + 1) (e + 1) (s.addFile i e))
    (hother : ∀ i e s, inv i e s → i < blockCount → nameAt s.mem i ≠ [] →
      typeAt s.mem i ≠ tarTypeDirectory → typeAt s.mem i ≠ tarTypeFile →
        inv (i + blocksAt s.mem i + 1) (e + 1) (s.look i))
    (h : inv i e s) : post (secondPass blockCount stale i e s) := by
  induction hrest : blockCount - i using Nat.strong_induction_on generalizing i e s with
  | _ n ih =>
    subst hrest
    rcases Nat.lt_or_ge i blockCount with hi | hi
    · by_cases hname : nameAt s.mem i = []
      · rw [secondPass_end hi hname]
        exact hend i e s h hi hname
      · by_cases htype : typeAt s.mem i = tarTypeDirectory
        · rw [secondPass_directory hi hname htype]
          have hlt := lt_readDirectory blockCount (stale s.nextNode) i 0
            ((s.look i).store 0 e s.nextNode)
          exact ih _ (by omega) (hdir i e s h hi hname htype) rfl
        · by_cases htype' : typeAt s.mem i = tarTypeFile
          · rw [secondPass_file hi hname htype']
            exact ih _ (by omega) (hfile i e s h hi hname htype') rfl
          · rw [secondPass_other hi hname htype htype']
            exact ih _ (by omega) (hother i e s h hi hname htype htype') rfl
    · rw [secondPass_of_le hi]
      exact hle i e s h hi

end SecondPass

end Tar

end Borrrdex
