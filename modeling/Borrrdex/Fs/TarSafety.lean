import Borrrdex.Fs.TarFlat

/-!
# Which archives are safe to mount

The arrays of a volume are as large as the first pass finds: a node for each header it comes to, and
a child of the root for each that has no slash, or one at the end.  The second pass goes another
way.  It stops at the first header without a name, does not look for slashes, steps over a block
behind each directory, and leaves out what is neither a file nor a directory, but not its place
among the children.

`headerChain` is where the first pass goes, and `visits` where the second one does, without the
nodes that it makes; `construct_safe` says by these two for which archives everything it reads,
makes and stores is where it should be.
-/

set_option autoImplicit false

namespace Borrrdex

namespace Tar

/-! ## Two ways through an archive -/

/-- The headers the first pass comes to, from block `i` on. -/
def headerChain (blockCount : ℕ) (bytes : List Byte) (i : ℕ) : List ℕ :=
  if _h : i < blockCount then i :: headerChain blockCount bytes (i + blocksAt bytes i + 1) else []
termination_by blockCount - i

/-- How many entries a directory claims, from block `i` on; `dir` is its header. -/
def claimed (blockCount : ℕ) (mem : List Byte) (dir i : ℕ) : ℕ :=
  if _h : i < blockCount then
    if nameAt mem i ≠ nameAt mem dir ∨ nameAt mem i = [] then 0
    else if mem.getD (512 * i + min (nameAt mem dir).length 100) 0 ≠ 0x2F then 0
    else claimed blockCount mem dir (i + blocksAt mem i + 1) + 1
  else 0
termination_by blockCount - i

/-- The next `n` entries, from block `i` on: how many there are, the block behind, and what becomes
of memory. -/
def passEntries (blockCount : ℕ) : ℕ → ℕ → List Byte → ℕ × ℕ × List Byte
  | 0, i, mem => (0, i, mem)
  | n + 1, i, mem =>
    if i < blockCount then
      let r := passEntries blockCount n (i + blocksAt (cut mem i) i + 1) (cut mem i)
      (r.1 + 1, r.2)
    else (0, i, mem)

/-- A header that the second pass comes to: its type, and how many entries it claims and gets. -/
structure Visit where
  type : Byte
  claimed : ℕ
  found : ℕ
deriving DecidableEq

/-- Whether it becomes a child of the root. -/
def Visit.Stored (w : Visit) : Prop := w.type = tarTypeFile ∨ w.type = tarTypeDirectory

/-- How many nodes are made for it. -/
def Visit.nodes (w : Visit) : ℕ :=
  if w.type = tarTypeDirectory then w.found + 1 else if w.type = tarTypeFile then 1 else 0

theorem le_passEntries (blockCount n i : ℕ) (mem : List Byte) :
    i ≤ (passEntries blockCount n i mem).2.1 := by
  induction n generalizing i mem with
  | zero => exact le_rfl
  | succ n ih =>
    rw [passEntries]
    split
    · exact (Nat.le_succ_of_le (Nat.le_add_right _ _)).trans (ih _ _)
    · exact le_rfl

/-- What the second pass comes to, from block `i` on. -/
def visits (blockCount : ℕ) (mem : List Byte) (i : ℕ) : List Visit :=
  if _h : i < blockCount then
    if nameAt mem i = [] then []
    else if typeAt mem i = tarTypeDirectory then
      let n := claimed blockCount (cut mem i) i (i + blocksAt (cut mem i) i)
      let r := passEntries blockCount n (i + blocksAt (cut mem i) i + 1) (cut mem i)
      ⟨tarTypeDirectory, n, r.1⟩ :: visits blockCount r.2.2 (r.2.1 + blocksAt mem i + 1)
    else if typeAt mem i = tarTypeFile then
      ⟨tarTypeFile, 0, 0⟩ :: visits blockCount (cut mem i) (i + blocksAt mem i + 1)
    else ⟨typeAt mem i, 0, 0⟩ :: visits blockCount mem (i + blocksAt mem i + 1)
  else []
termination_by blockCount - i
decreasing_by
  · have hle := le_passEntries blockCount
      (claimed blockCount (cut mem i) i (i + blocksAt (cut mem i) i))
      (i + blocksAt (cut mem i) i + 1) (cut mem i)
    omega
  · omega
  · omega

/-- **An archive fits its arrays**: whatever the second pass comes to is a file or a directory; the
first pass has counted as many entries of the root; and a directory gets the entries it claims, and
the nodes are enough for them. -/
structure TarImage.Fits (image : TarImage) (behind : List Byte) : Prop where
  stored : ∀ w ∈ visits image.blockCount image.bytes 0, w.Stored
  children : (visits image.blockCount image.bytes 0).length ≤
    (headerChain image.blockCount image.bytes 0).countP (countsAtRoot image.bytes behind)
  found : ∀ w ∈ visits image.blockCount image.bytes 0, w.found = w.claimed
  nodes : ((visits image.blockCount image.bytes 0).map Visit.nodes).sum ≤
    (headerChain image.blockCount image.bytes 0).length

/-- **What a volume is constructed of is where it should be**: the blocks that are read are in the
archive, the inodes have a node, each store into an array of children is in its memory, and each
child has been stored, with such an inode. -/
structure TarVolume.Safe (v : TarVolume) (image : TarImage) : Prop where
  blocksRead : ∀ b ∈ v.state.blocksRead, b < image.blockCount
  inodes : ∀ inode ∈ v.state.inodes, inode < v.nodeCount
  stores : ∀ inode, ∀ p ∈ (v.node inode).children.stores, p.1 < (v.node inode).children.capacity
  slots : ∀ inode, ∀ e < (v.node inode).entryCount,
    ∃ child < v.nodeCount, (v.node inode).children.stores.lookup e = some child

/-! ## What directories claim -/

theorem partLoop_behind {i : ℕ} (rounds name : ℕ) {st : Strtok} (h : Behind st.saved i) :
    (partLoop rounds name st).2[i]? = st.buf[i]? := by
  induction rounds generalizing name st with
  | zero => rfl
  | succ rounds ih =>
    rw [partLoop]
    cases st.token with
    | none => rfl
    | some part =>
      obtain ⟨hsame, hbehind⟩ := strtokR_behind slash st.buf h
      exact (ih part hbehind).trans hsame

/-- **What is left of a name**: it ends in the first part that has been taken. -/
theorem exists_nameAt_cut (mem : List Byte) (i : ℕ) : ∃ pre w rest,
    mem.drop (512 * i) = pre ++ rest ∧ (∀ c ∈ pre, c = 0x2F) ∧ (∀ c ∈ w, c ≠ 0x2F) ∧
      nameAt (cut mem i) i = pre ++ w := by
  have hkept : ∀ p, Behind (strtokR (some 0) none slash (mem.drop (512 * i))).saved p →
      (takeApart (mem.drop (512 * i))).2[p]? =
        (strtokR (some 0) none slash (mem.drop (512 * i))).buf[p]? := fun p hp ↦
    partLoop_behind _ _ hp
  obtain ⟨pre, w, rest, hbuf, hpre, hw, hend⟩ := strtokR_first hkept
  refine ⟨pre, w, w ++ rest, hbuf, fun c hc ↦ ?_, fun c hc hslash ↦ ?_, ?_⟩
  · exact (strchr_slash_isSome.mp (hpre c hc).2).resolve_left (hpre c hc).1
  · have hnot := (hw c hc).2
    rw [hslash] at hnot
    exact absurd hnot (by decide)
  · rw [nameAt, drop_cut_self]
    rcases hend with ⟨hnil, hsame⟩ | ⟨-, d, rest', left, -, -, -, hcut⟩
    · rw [hsame, hbuf, cString_append fun x hx ↦ (hpre x hx).1,
        cString_append fun x hx ↦ (hw x hx).1, hnil, List.append_nil]
    · rw [hcut, cString_append fun x hx ↦ (hpre x hx).1,
        cString_append_cons_zero fun x hx ↦ (hw x hx).1]

theorem getElem?_nameAt {mem : List Byte} {i k : ℕ} (hk : k < (nameAt mem i).length) :
    (nameAt mem i)[k]? = (mem.drop (512 * i))[k]? := by
  obtain ⟨rest, hrest, -⟩ := takeWhile_split (fun c ↦ c != 0) (mem.drop (512 * i))
  have happend : (nameAt mem i ++ rest)[k]? = (nameAt mem i)[k]? := List.getElem?_append_left hk
  rw [← happend]
  exact congrArg (fun l : List Byte ↦ l[k]?) hrest.symm

/-- A name that goes on with a slash where the name of a directory ends has 101 of them. -/
theorem slashes_of_leaf {mem : List Byte} {i j : ℕ}
    (hname : nameAt (cut mem i) j = nameAt (cut mem i) i)
    (hleaf : (cut mem i).getD (512 * j + min (nameAt (cut mem i) i).length 100) 0 = 0x2F) :
    ∀ p ≤ 100, mem[512 * i + p]? = some 0x2F := by
  obtain ⟨pre, w, rest, hbuf, hpre, hw, hcut⟩ := exists_nameAt_cut mem i
  have hlong : 100 < (nameAt (cut mem i) j).length := by
    by_contra hshort
    have hnull := getD_length_cString ((cut mem i).drop (512 * j))
    rw [← hname, Nat.min_eq_left (not_lt.mp hshort), List.getD_eq_getElem?_getD,
      ← List.getElem?_drop, ← List.getD_eq_getElem?_getD] at hleaf
    rw [nameAt, hnull] at hleaf
    exact absurd hleaf (by decide)
  have hslash : (pre ++ w)[100]? = some 0x2F := by
    rw [← hcut, ← hname, getElem?_nameAt hlong]
    rw [← hname, Nat.min_eq_right hlong.le, List.getD_eq_getElem?_getD,
      ← List.getElem?_drop] at hleaf
    cases hget : ((cut mem i).drop (512 * j))[100]? with
    | none =>
      rw [hget] at hleaf
      exact absurd hleaf (by decide)
    | some c =>
      rw [hget] at hleaf
      exact congrArg some hleaf
  have hin : 100 < pre.length := by
    by_contra hout
    rw [List.getElem?_append_right (not_lt.mp hout)] at hslash
    exact hw _ (List.mem_of_getElem? hslash) rfl
  intro p hp
  have hlt : p < pre.length := hp.trans_lt hin
  rw [← List.getElem?_drop, hbuf, List.getElem?_append_left hlt, List.getElem?_eq_getElem hlt,
    hpre _ (List.getElem_mem hlt)]

/-- A directory claims entries only if its name begins with 101 slashes, one more than fit. -/
theorem claimed_eq_zero (blockCount : ℕ) {mem : List Byte} {i : ℕ}
    (h : ∃ p ≤ 100, mem[512 * i + p]? ≠ some 0x2F) (j : ℕ) :
    claimed blockCount (cut mem i) i j = 0 := by
  rw [claimed]
  split
  · split
    · rfl
    · next hname =>
      rw [not_or, not_not] at hname
      refine if_pos fun hleaf ↦ ?_
      obtain ⟨p, hp, hne⟩ := h
      exact hne (slashes_of_leaf hname.1 hleaf p hp)
  · rfl

/-- No header begins with 101 slashes. -/
def NoSlashes (blockCount : ℕ) (mem : List Byte) : Prop :=
  ∀ i < blockCount, ∃ p ≤ 100, mem[512 * i + p]? ≠ some 0x2F

theorem NoSlashes.cut {blockCount : ℕ} {mem : List Byte} (h : NoSlashes blockCount mem) (i : ℕ) :
    NoSlashes blockCount (cut mem i) := by
  intro j hj
  obtain ⟨p, hp, hne⟩ := h j hj
  refine ⟨p, hp, ?_⟩
  rcases getElem?_cut mem i (512 * j + p) with hsame | ⟨-, -, hnull⟩
  · rw [hsame]
    exact hne
  · rw [hnull]
    decide

/-- Then no directory claims any. -/
theorem visits_claimed {blockCount : ℕ} {mem : List Byte} {i : ℕ} (h : NoSlashes blockCount mem) :
    ∀ w ∈ visits blockCount mem i, w.claimed = 0 ∧ w.found = 0 := by
  induction hrest : blockCount - i using Nat.strong_induction_on generalizing i mem with
  | _ n ih =>
    subst hrest
    rw [visits]
    split
    · next hi =>
      split
      · exact fun w hw ↦ nomatch hw
      · split
        · have hzero := claimed_eq_zero blockCount (h i hi)
            (i + blocksAt (Tar.cut mem i) i)
          rw [hzero]
          exact List.forall_mem_cons.mpr ⟨⟨rfl, rfl⟩, ih _ (by dsimp only [passEntries]; omega)
            (h.cut i) rfl⟩
        · split
          · exact List.forall_mem_cons.mpr ⟨⟨rfl, rfl⟩, ih _ (by omega) (h.cut i) rfl⟩
          · exact List.forall_mem_cons.mpr ⟨⟨rfl, rfl⟩, ih _ (by omega) h rfl⟩
    · exact fun w hw ↦ nomatch hw

/-- **When an archive fits**: whatever is come to is a file or a directory, and the first pass has
counted as many. -/
theorem fits_iff {image : TarImage} {behind : List Byte}
    (h : NoSlashes image.blockCount image.bytes) : image.Fits behind ↔
      (∀ w ∈ visits image.blockCount image.bytes 0, w.Stored) ∧
        (visits image.blockCount image.bytes 0).length ≤
          (headerChain image.blockCount image.bytes 0).countP
            (countsAtRoot image.bytes behind) := by
  refine ⟨fun hfits ↦ ⟨hfits.stored, hfits.children⟩, fun ⟨hstored, hchildren⟩ ↦
    ⟨hstored, hchildren, fun w hw ↦ ?_, ?_⟩⟩
  · obtain ⟨hclaimed, hfound⟩ := visits_claimed h w hw
    rw [hclaimed, hfound]
  · have hone : ∀ n ∈ (visits image.blockCount image.bytes 0).map Visit.nodes, n ≤ 1 := by
      intro n hn
      obtain ⟨w, hw, rfl⟩ := List.mem_map.mp hn
      rw [Visit.nodes, (visits_claimed h w hw).2]
      split
      · exact le_rfl
      · split <;> decide
    have hsum := List.sum_le_card_nsmul _ 1 hone
    rw [List.length_map, smul_eq_mul, Nat.mul_one] at hsum
    exact hsum.trans (hchildren.trans List.countP_le_length)

/-! ## The first pass -/

/-- It makes a node for each header, and a child of the root for those it counts. -/
theorem firstPass_eq (blockCount : ℕ) (bytes behind : List Byte) (i : ℕ) (c : Counts) :
    (firstPass blockCount bytes behind i c).nodeCount =
      c.nodeCount + (headerChain blockCount bytes i).length ∧
    (firstPass blockCount bytes behind i c).entryCount =
      c.entryCount + (headerChain blockCount bytes i).countP (countsAtRoot bytes behind) := by
  fun_induction firstPass blockCount bytes behind i c with
  | case1 i c hi ih =>
    rw [headerChain, dif_pos hi, List.length_cons, List.countP_cons]
    refine ⟨ih.1.trans ?_, ih.2.trans ?_⟩
    · dsimp only
      omega
    · dsimp only
      split <;> omega
  | case2 i c hi =>
    rw [headerChain, dif_neg hi]
    exact ⟨rfl, rfl⟩

/-! ## The record -/

/-- What holds of the record whenever it is looked at: the blocks have been read, the inodes given
out, and the arrays stored to as they should, apart from the root's. -/
structure Sound (blockCount : ℕ) (s : TarState) : Prop where
  blocksRead : ∀ b ∈ s.blocksRead, b < blockCount
  nextNode : 0 < s.nextNode
  inodes : ∀ n, n ∈ s.inodes ↔ 0 < n ∧ n < s.nextNode
  stored : ∀ k e c, (s.nodes k).children.stores.lookup e = some c → c < s.nextNode
  stores : ∀ k ≠ 0, ∀ p ∈ (s.nodes k).children.stores, p.1 < (s.nodes k).children.capacity
  unused : ∀ k, s.nextNode ≤ k → (s.nodes k).children.stores = [] ∧ (s.nodes k).entryCount = 0

/-- `_nodes[inode].children[e]` has been stored to. -/
def TarState.Slot (s : TarState) (inode e : ℕ) : Prop :=
  ((s.nodes inode).children.stores.lookup e).isSome

/-- All children of the directories, apart from the root, have been. -/
def TarState.Full (s : TarState) : Prop :=
  ∀ k ≠ 0, ∀ e < (s.nodes k).entryCount, s.Slot k e

theorem TarState.Full.of_nodes {s s' : TarState} (h : s.Full)
    (hs : ∀ k ≠ 0, s'.nodes k = s.nodes k ∨ (s'.nodes k).entryCount = 0) : s'.Full := by
  intro k hk e he
  rcases hs k hk with hsame | hnone
  · rw [Slot, hsame]
    exact h k hk e (hsame ▸ he)
  · rw [hnone] at he
    exact absurd he (Nat.not_lt_zero e)

theorem slot_store {c : Children} {e inode k : ℕ} :
    ((c.store e inode).stores.lookup k).isSome ↔ (c.stores.lookup k).isSome ∨ k = e := by
  rw [Children.store, List.lookup_cons]
  by_cases hk : k = e
  · rw [hk, beq_self_eq_true]
    exact iff_of_true rfl (.inr rfl)
  · rw [beq_false_of_ne hk]
    exact ⟨.inl, fun h ↦ h.resolve_right hk⟩

section Sound

variable {blockCount : ℕ} {s s' : TarState}

theorem Sound.of_looked (h : Sound blockCount s) (hs : Looked blockCount s s') :
    Sound blockCount s' where
  blocksRead := hs.blocksRead h.blocksRead
  nextNode := hs.nextNode ▸ h.nextNode
  inodes n := by rw [hs.inodes, hs.nextNode, h.inodes]
  stored k e c hc := hs.nextNode ▸ h.stored k e c (hs.nodes ▸ hc)
  stores k hk := hs.nodes ▸ h.stores k hk
  unused k hk := hs.nodes ▸ h.unused k (hs.nextNode ▸ hk)

/-- A node is made, and stored in an array. -/
theorem Sound.add {dir e : ℕ} (h : Sound blockCount s)
    (hnextNode : s'.nextNode = s.nextNode + 1) (hinodes : s'.inodes = s.nextNode :: s.inodes)
    (hread : ∀ b ∈ s'.blocksRead, b < blockCount)
    (hdir : (s'.nodes dir).children = (s.nodes dir).children.store e s.nextNode)
    (hnew : (s'.nodes s.nextNode).children.stores = [])
    (hother : ∀ k, k ≠ dir → k ≠ s.nextNode → s'.nodes k = s.nodes k) (hlt : dir < s.nextNode)
    (hslot : dir ≠ 0 → e < (s.nodes dir).children.capacity) : Sound blockCount s' where
  blocksRead := hread
  nextNode := hnextNode ▸ Nat.succ_pos _
  inodes n := by
    rw [hinodes, hnextNode, List.mem_cons, h.inodes]
    have := h.nextNode
    omega
  stored k e' c hc := by
    rw [hnextNode]
    by_cases hk : k = s.nextNode
    · rw [hk, hnew] at hc
      cases hc
    · by_cases hk' : k = dir
      · rw [hk', hdir, Children.store, List.lookup_cons] at hc
        split at hc
        · exact (Option.some.inj hc) ▸ Nat.lt_succ_self _
        · exact (h.stored _ _ _ hc).trans (Nat.lt_succ_self _)
      · rw [hother k hk' hk] at hc
        exact (h.stored _ _ _ hc).trans (Nat.lt_succ_self _)
  stores k hne p hp := by
    by_cases hk : k = s.nextNode
    · rw [hk, hnew] at hp
      cases hp
    · by_cases hk' : k = dir
      · rw [hk', hdir] at hp ⊢
        rcases List.mem_cons.mp hp with rfl | hp
        · exact hslot (hk' ▸ hne)
        · exact h.stores dir (hk' ▸ hne) p hp
      · rw [hother k hk' hk] at hp ⊢
        exact h.stores k hne p hp
  unused k hk := by
    rw [hnextNode] at hk
    rw [hother k (by omega) (by omega)]
    exact h.unused k (by omega)

end Sound

/-! ## Entries -/

/-- A node is made for a header, and stored in the array of a directory. -/
def TarState.addEntry (s : TarState) (dir i e : ℕ) : TarState :=
  (s.takeNode.2.makeNode i s.nextNode dir).store dir e s.nextNode

section Entries

variable {blockCount : ℕ} {s : TarState} {dir i e : ℕ}

theorem makeNode_children (s : TarState) (i inode parent : ℕ) :
    ((s.makeNode i inode parent).nodes inode).children = (s.nodes inode).children ∧
    ((s.makeNode i inode parent).nodes inode).entryCount = (s.nodes inode).entryCount := by
  rw [TarState.makeNode, TarState.update_nodes_self]
  exact ⟨rfl, rfl⟩

theorem addEntry_nodes_dir (hdir : dir ≠ s.nextNode) : (s.addEntry dir i e).nodes dir =
    { s.nodes dir with children := (s.nodes dir).children.store e s.nextNode } := by
  rw [TarState.addEntry, TarState.store, TarState.update_nodes_self,
    TarState.makeNode_nodes_of_ne _ _ _ hdir]
  rfl

theorem addEntry_nodes_of_ne {k : ℕ} (hk : k ≠ dir) (hk' : k ≠ s.nextNode) :
    (s.addEntry dir i e).nodes k = s.nodes k :=
  (TarState.store_nodes_of_ne _ _ _ hk).trans (TarState.makeNode_nodes_of_ne _ _ _ hk')

theorem addEntry_nodes_new (hdir : dir ≠ s.nextNode) :
    ((s.addEntry dir i e).nodes s.nextNode).children = (s.nodes s.nextNode).children ∧
    ((s.addEntry dir i e).nodes s.nextNode).entryCount = (s.nodes s.nextNode).entryCount := by
  rw [TarState.addEntry, TarState.store_nodes_of_ne _ _ _ hdir.symm]
  exact makeNode_children s.takeNode.2 i s.nextNode dir

theorem Sound.addEntry (h : Sound blockCount s) (hi : i < blockCount) (hdir : dir < s.nextNode)
    (hslot : dir ≠ 0 → e < (s.nodes dir).children.capacity) :
    Sound blockCount (s.addEntry dir i e) := by
  refine h.add rfl rfl (List.forall_mem_cons.mpr ⟨hi, h.blocksRead⟩) ?_ ?_
    (fun k hk hk' ↦ addEntry_nodes_of_ne hk hk') hdir hslot
  · rw [addEntry_nodes_dir hdir.ne]
  · rw [(addEntry_nodes_new hdir.ne).1, (h.unused _ le_rfl).1]

/-- What `read_directory` counts is what the directory claims. -/
theorem countEntries_fst (entryCount : ℕ) : (countEntries blockCount dir i entryCount s).1 =
    entryCount + claimed blockCount s.mem dir i := by
  induction hrest : blockCount - i using Nat.strong_induction_on generalizing i entryCount s with
  | _ n ih =>
    subst hrest
    rw [countEntries, claimed]
    by_cases hi : i < blockCount
    · rw [dif_pos hi, dif_pos hi]
      by_cases hname : nameAt s.mem i ≠ nameAt s.mem dir ∨ nameAt s.mem i = []
      · rw [if_pos hname]
        exact congrArg Prod.fst (if_pos hname)
      · by_cases hleaf : s.mem.getD (512 * i + min (nameAt s.mem dir).length 100) 0 ≠ 0x2F
        · rw [if_neg hname, if_pos hleaf]
          exact congrArg Prod.fst ((if_neg hname).trans (if_pos hleaf))
        · rw [if_neg hname, if_neg hleaf]
          refine (congrArg Prod.fst ((if_neg hname).trans (if_neg hleaf))).trans ?_
          refine (ih _ (by omega) _ rfl).trans ?_
          rw [TarState.look_mem]
          omega
    · rw [dif_neg hi, dif_neg hi]
      rfl

/-- What has become of a directory of `entryCount` entries, from the `e`-th of them on. -/
structure Entered (blockCount dir entryCount e found : ℕ) (s t : TarState) : Prop where
  sound : Sound blockCount t
  nextNode : t.nextNode = s.nextNode + found
  entryCount : (t.nodes dir).entryCount = entryCount
  slots : ∀ k, t.Slot dir k ↔ k < e + found
  other : ∀ k ≠ dir, k < s.nextNode → t.nodes k = s.nodes k
  leaf : ∀ k, s.nextNode ≤ k → (t.nodes k).entryCount = 0

/-- **The entries of a directory**: there are as many as the archive has. -/
theorem addEntries_spec {entryCount m : ℕ} (h : Sound blockCount s)
    (hdir : dir < s.nextNode) (hm : entryCount = e + m)
    (hcount : (s.nodes dir).entryCount = entryCount)
    (hcapacity : (s.nodes dir).children.capacity = entryCount)
    (hslots : ∀ k, s.Slot dir k ↔ k < e) :
    (addEntries blockCount dir entryCount i e s).1 = (passEntries blockCount m i s.mem).2.1 ∧
    (addEntries blockCount dir entryCount i e s).2.mem = (passEntries blockCount m i s.mem).2.2 ∧
    Entered blockCount dir entryCount e (passEntries blockCount m i s.mem).1 s
      (addEntries blockCount dir entryCount i e s).2 := by
  induction m generalizing i e s with
  | zero =>
    have hstop : ¬ (i < blockCount ∧ e < entryCount) := fun h ↦ by omega
    rw [addEntries, dif_neg hstop, passEntries]
    exact ⟨rfl, rfl, h, rfl, hcount, hslots, fun _ _ _ ↦ rfl, fun k hk ↦ (h.unused k hk).2⟩
  | succ m ih =>
    by_cases hi : i < blockCount
    · have hstep : addEntries blockCount dir entryCount i e s =
          addEntries blockCount dir entryCount (i + blocksAt (cut s.mem i) i + 1) (e + 1)
            (s.addEntry dir i e) := by
        rw [addEntries, dif_pos ⟨hi, by omega⟩]
        rfl
      have hroot := addEntry_nodes_dir (i := i) (e := e) hdir.ne
      have hnew := addEntry_nodes_new (i := i) (e := e) hdir.ne
      obtain ⟨hnext, hmem, hs⟩ := ih (i := i + blocksAt (cut s.mem i) i + 1) (e := e + 1)
        (s := s.addEntry dir i e)
        (h.addEntry hi hdir fun _ ↦ by rw [hcapacity]; omega) (hdir.trans (Nat.lt_succ_self _))
        (by omega) (by rw [hroot]; exact hcount) (by rw [hroot]; exact hcapacity)
        fun k ↦ by
          rw [TarState.Slot, hroot, slot_store, Nat.lt_succ_iff_lt_or_eq]
          exact or_congr (hslots k) Iff.rfl
      have hpass : passEntries blockCount (m + 1) i s.mem =
          ((passEntries blockCount m (i + blocksAt (cut s.mem i) i + 1) (cut s.mem i)).1 + 1,
            (passEntries blockCount m (i + blocksAt (cut s.mem i) i + 1) (cut s.mem i)).2) := by
        rw [passEntries, if_pos hi]
      rw [hstep, hpass]
      refine ⟨hnext, hmem, hs.sound, ?_, hs.entryCount, fun k ↦ ?_, fun k hk hlt ↦ ?_,
        fun k hk ↦ ?_⟩
      · exact hs.nextNode.trans (Nat.add_right_comm _ _ _)
      · rw [hs.slots, Nat.add_assoc, Nat.add_comm 1]
        rfl
      · rw [hs.other k hk (hlt.trans (Nat.lt_succ_self _))]
        exact addEntry_nodes_of_ne hk hlt.ne
      · rcases Nat.eq_or_lt_of_le hk with rfl | hlt
        · rw [hs.other _ hdir.ne' (Nat.lt_succ_self _), hnew.2]
          exact (h.unused _ le_rfl).2
        · exact hs.leaf k hlt
    · have hstop : ¬ (i < blockCount ∧ e < entryCount) := fun h ↦ hi h.1
      rw [addEntries, dif_neg hstop, passEntries, if_neg hi]
      exact ⟨rfl, rfl, h, rfl, hcount, hslots, fun _ _ _ ↦ rfl, fun k hk ↦ (h.unused k hk).2⟩

end Entries

/-! ## The second pass -/

/-- The record, when the second pass has come to the headers `seen`. -/
structure Walked (blockCount capacity : ℕ) (seen : List Visit) (s : TarState) : Prop
    extends Sound blockCount s where
  next : s.nextNode = 1 + (seen.map Visit.nodes).sum
  capacity : (s.nodes 0).children.capacity = capacity
  root : ∀ e, s.Slot 0 e ↔ ∃ w, seen[e]? = some w ∧ w.Stored
  full : s.Full ↔ ∀ w ∈ seen, w.found = w.claimed

theorem stored_concat {seen : List Visit} {w : Visit} {e : ℕ} :
    (∃ w', (seen ++ [w])[e]? = some w' ∧ w'.Stored) ↔
      (∃ w', seen[e]? = some w' ∧ w'.Stored) ∨ e = seen.length ∧ w.Stored := by
  rcases Nat.lt_trichotomy e seen.length with hlt | rfl | hgt
  · rw [List.getElem?_append_left hlt]
    exact ⟨.inl, fun h ↦ h.resolve_right fun h ↦ hlt.ne h.1⟩
  · rw [List.getElem?_concat_length, List.getElem?_eq_none le_rfl]
    simp
  · rw [List.getElem?_eq_none (by rw [List.length_append, List.length_singleton]; omega),
      List.getElem?_eq_none hgt.le]
    simp [hgt.ne']

theorem passEntries_fst_le (blockCount n i : ℕ) (mem : List Byte) :
    (passEntries blockCount n i mem).1 ≤ n := by
  induction n generalizing i mem with
  | zero => exact le_rfl
  | succ n ih =>
    rw [passEntries]
    split
    · exact Nat.succ_le_succ (ih _ _)
    · exact Nat.zero_le _

section SecondPass

variable {blockCount capacity : ℕ} {seen : List Visit} {s : TarState} {i : ℕ}

/-- A header that is neither a file nor a directory takes a place among the children. -/
theorem Walked.other (h : Walked blockCount capacity seen s) (hi : i < blockCount) {w : Visit}
    (hstored : ¬ w.Stored) (hfound : w.found = w.claimed) :
    Walked blockCount capacity (seen ++ [w]) (s.look i) := by
  have hnodes : w.nodes = 0 := by
    rw [Visit.nodes, if_neg fun hw ↦ hstored (.inr hw), if_neg fun hw ↦ hstored (.inl hw)]
  refine ⟨h.toSound.of_looked (Looked.look s hi), ?_, h.capacity, fun e ↦ ?_, ?_⟩
  · rw [List.map_append, List.sum_append, List.map_singleton, List.sum_singleton, hnodes]
    exact h.next
  · rw [stored_concat]
    exact (h.root e).trans ⟨.inl, fun hw ↦ hw.resolve_right fun hw ↦ hstored hw.2⟩
  · rw [List.forall_mem_append]
    exact h.full.trans ⟨fun hw ↦ ⟨hw, List.forall_mem_singleton.mpr hfound⟩, fun hw ↦ hw.1⟩

/-- A file takes a node, and is stored. -/
theorem Walked.file (h : Walked blockCount capacity seen s) (hi : i < blockCount) :
    Walked blockCount capacity (seen ++ [⟨tarTypeFile, 0, 0⟩]) (s.addFile i seen.length) := by
  have hadd : s.addFile i seen.length = (s.look i).addEntry 0 i seen.length := rfl
  have hne : 0 ≠ (s.look i).nextNode := h.nextNode.ne
  have hsound := (h.toSound.of_looked (Looked.look s hi)).addEntry (e := seen.length) hi h.nextNode
    fun hzero ↦ absurd rfl hzero
  have hroot := addEntry_nodes_dir (i := i) (e := seen.length) hne
  have hnew := addEntry_nodes_new (i := i) (e := seen.length) hne
  rw [hadd]
  refine ⟨hsound, ?_, ?_, fun e ↦ ?_, ?_⟩
  · rw [List.map_append, List.sum_append, ← Nat.add_assoc, ← h.next]
    rfl
  · rw [hroot]
    exact h.capacity
  · rw [stored_concat, TarState.Slot, hroot, slot_store]
    exact or_congr (h.root e) ⟨fun he ↦ ⟨he, .inl rfl⟩, fun he ↦ he.1⟩
  · have hold : ∀ k ≠ 0, ((s.look i).addEntry 0 i seen.length).nodes k = s.nodes k ∨
        (((s.look i).addEntry 0 i seen.length).nodes k).entryCount = 0 ∧
          (s.nodes k).entryCount = 0 := by
      intro k hk
      by_cases hself : k = s.nextNode
      · have hunused := (h.unused k hself.ge).2
        subst hself
        exact .inr ⟨hnew.2.trans hunused, hunused⟩
      · exact .inl (addEntry_nodes_of_ne hk hself)
    rw [List.forall_mem_append, List.forall_mem_singleton, ← h.full]
    exact ⟨fun hfull ↦ ⟨hfull.of_nodes fun k hk ↦ (hold k hk).imp Eq.symm And.right, rfl⟩,
      fun hfull ↦ hfull.1.of_nodes fun k hk ↦ (hold k hk).imp_right And.left⟩

/-- A directory takes a node and is stored, and so are the entries it gets. -/
theorem Walked.directory (h : Walked blockCount capacity seen s) (hi : i < blockCount)
    (stale : ℕ → ℕ) {w : Visit} (htype : w.type = tarTypeDirectory)
    (hclaimed : w.claimed = claimed blockCount (cut s.mem i) i (i + blocksAt (cut s.mem i) i))
    (hfound : w.found = (passEntries blockCount w.claimed (i + blocksAt (cut s.mem i) i + 1)
      (cut s.mem i)).1) :
    (readDirectory blockCount stale i 0 ((s.look i).store 0 seen.length s.nextNode)).1 =
      (passEntries blockCount w.claimed (i + blocksAt (cut s.mem i) i + 1) (cut s.mem i)).2.1 ∧
    (readDirectory blockCount stale i 0 ((s.look i).store 0 seen.length s.nextNode)).2.mem =
      (passEntries blockCount w.claimed (i + blocksAt (cut s.mem i) i + 1) (cut s.mem i)).2.2 ∧
    Walked blockCount capacity (seen ++ [w])
      (readDirectory blockCount stale i 0 ((s.look i).store 0 seen.length s.nextNode)).2 := by
  set s₁ := (s.look i).store 0 seen.length s.nextNode with hs₁
  have hopened := opened_openDirectory hi stale s₁
  have hcount : (s₁.openDirectory blockCount stale i).1 = w.claimed := by
    rw [TarState.openDirectory, countEntries_fst, Nat.zero_add, hclaimed]
    rfl
  have hroot : (s₁.openDirectory blockCount stale i).2.nodes 0 =
      { s.nodes 0 with children := (s.nodes 0).children.store seen.length s.nextNode } :=
    (hopened.other 0 h.nextNode.ne).trans (TarState.update_nodes_self ..)
  have hother : ∀ k ≠ 0, k ≠ s.nextNode →
      (s₁.openDirectory blockCount stale i).2.nodes k = s.nodes k := fun k hk hk' ↦
    (hopened.other k hk').trans (TarState.store_nodes_of_ne _ _ _ hk)
  have hsound : Sound blockCount (s₁.openDirectory blockCount stale i).2 :=
    h.toSound.add hopened.nextNode hopened.inodes
      (hopened.blocksRead (List.forall_mem_cons.mpr ⟨hi, h.blocksRead⟩)) (by rw [hroot])
      (by rw [show s.nextNode = s₁.nextNode from rfl, hopened.children]) hother h.nextNode
      fun hzero ↦ absurd rfl hzero
  obtain ⟨hnext, hmem, ht⟩ := addEntries_spec (i := i + blocksAt (cut s.mem i) i + 1) (e := 0)
    (m := w.claimed) hsound hopened.nextNode.symm.le
    (Nat.zero_add _).symm (hopened.entryCount.trans hcount) (by rw [hopened.children, hcount])
    fun k ↦ by rw [TarState.Slot, hopened.children]; simp
  have hmem₁ : (s₁.openDirectory blockCount stale i).2.mem = cut s.mem i := hopened.mem
  rw [hmem₁] at hnext hmem ht
  rw [← hfound] at ht
  rw [readDirectory_eq, hcount, show s₁.mem = s.mem from rfl]
  set t := (addEntries blockCount s₁.nextNode w.claimed (i + blocksAt (cut s.mem i) i + 1) 0
    (s₁.openDirectory blockCount stale i).2).2
  have ht0 : t.nodes 0 =
      { s.nodes 0 with children := (s.nodes 0).children.store seen.length s.nextNode } :=
    (ht.other 0 h.nextNode.ne (hopened.nextNode ▸ Nat.succ_pos _)).trans hroot
  refine ⟨hnext, hmem, ht.sound, ?_, ?_, fun e ↦ ?_, ?_⟩
  · rw [ht.nextNode, hopened.nextNode, List.map_append, List.sum_append, List.map_singleton,
      List.sum_singleton, Visit.nodes, if_pos htype, ← Nat.add_assoc, ← h.next,
      Nat.add_right_comm]
    rfl
  · rw [ht0]
    exact h.capacity
  · rw [stored_concat, TarState.Slot, ht0, slot_store]
    exact or_congr (h.root e) ⟨fun he ↦ ⟨he, .inr htype⟩, fun he ↦ he.1⟩
  · rw [List.forall_mem_append, List.forall_mem_singleton, ← h.full]
    have hold : ∀ k ≠ 0, k < s.nextNode → t.nodes k = s.nodes k := fun k hk hlt ↦
      (ht.other k hlt.ne (hopened.nextNode ▸ hlt.trans (Nat.lt_succ_self _))).trans
        (hother k hk hlt.ne)
    constructor
    · intro hfull
      refine ⟨fun k hk e he ↦ ?_, le_antisymm (hfound ▸ passEntries_fst_le ..) ?_⟩
      · rcases Nat.lt_or_ge k s.nextNode with hlt | hge
        · rw [TarState.Slot, ← hold k hk hlt]
          exact hfull k hk e (hold k hk hlt ▸ he)
        · rw [(h.unused k hge).2] at he
          exact absurd he (Nat.not_lt_zero e)
      · by_contra hless
        have hslot := hfull s₁.nextNode h.nextNode.ne' w.found
          (by rw [ht.entryCount]; exact not_le.mp hless)
        rw [ht.slots] at hslot
        omega
    · rintro ⟨hfull, hw⟩ k hk e he
      rcases Nat.lt_trichotomy k s.nextNode with hlt | heq | hgt
      · rw [TarState.Slot, hold k hk hlt]
        exact hfull k hk e (hold k hk hlt ▸ he)
      · have hk : k = s₁.nextNode := heq
        subst hk
        rw [ht.entryCount, ← hw] at he
        rw [ht.slots]
        omega
      · rw [ht.leaf k (hopened.nextNode ▸ hgt)] at he
        exact absurd he (Nat.not_lt_zero e)

/-- **The second pass**: it comes to what it visits. -/
theorem secondPass_walked (stale : ℕ → ℕ → ℕ) (h : Walked blockCount capacity seen s) :
    Walked blockCount capacity (seen ++ visits blockCount s.mem i)
      (secondPass blockCount stale i seen.length s).2 ∧
    (secondPass blockCount stale i seen.length s).1 =
      (seen ++ visits blockCount s.mem i).length := by
  refine secondPass_rule
    (fun j e s' ↦ ∃ seen', Walked blockCount capacity seen' s' ∧ e = seen'.length ∧
      seen' ++ visits blockCount s'.mem j = seen ++ visits blockCount s.mem i)
    (fun r ↦ Walked blockCount capacity (seen ++ visits blockCount s.mem i) r.2 ∧
      r.1 = (seen ++ visits blockCount s.mem i).length)
    (fun j e s' hs hj ↦ ?_) (fun j e s' hs hj hname ↦ ?_) (fun j e s' hs hj hname htype ↦ ?_)
    (fun j e s' hs hj hname htype ↦ ?_) (fun j e s' hs hj hname hdir hfile ↦ ?_)
    ⟨seen, h, rfl, rfl⟩
  · obtain ⟨seen', hwalked, rfl, hseen⟩ := hs
    rw [visits, dif_neg (not_lt.mpr hj), List.append_nil] at hseen
    rw [← hseen]
    exact ⟨hwalked, rfl⟩
  · obtain ⟨seen', hwalked, rfl, hseen⟩ := hs
    rw [visits, dif_pos hj, if_pos hname, List.append_nil] at hseen
    rw [← hseen]
    exact ⟨{ hwalked with
      toSound := hwalked.toSound.of_looked (Looked.look s' hj) }, rfl⟩
  · obtain ⟨seen', hwalked, rfl, hseen⟩ := hs
    rw [visits, dif_pos hj, if_neg hname, if_pos htype] at hseen
    set n := claimed blockCount (cut s'.mem j) j (j + blocksAt (cut s'.mem j) j) with hn
    obtain ⟨hnext, hmem, hstep⟩ := hwalked.directory hj (stale s'.nextNode)
      (w := ⟨tarTypeDirectory, n, (passEntries blockCount n (j + blocksAt (cut s'.mem j) j + 1)
        (cut s'.mem j)).1⟩) rfl hn rfl
    refine ⟨_, hstep, ?_, ?_⟩
    · rw [List.length_append, List.length_singleton]
    · rw [hmem, hnext, List.append_assoc]
      exact hseen
  · obtain ⟨seen', hwalked, rfl, hseen⟩ := hs
    have hdir : typeAt s'.mem j ≠ tarTypeDirectory := htype ▸ by decide
    rw [visits, dif_pos hj, if_neg hname, if_neg hdir, if_pos htype] at hseen
    refine ⟨_, hwalked.file hj, ?_, ?_⟩
    · rw [List.length_append, List.length_singleton]
    · rw [List.append_assoc]
      exact hseen
  · obtain ⟨seen', hwalked, rfl, hseen⟩ := hs
    rw [visits, dif_pos hj, if_neg hname, if_neg hdir, if_neg hfile] at hseen
    refine ⟨_, hwalked.other hj (w := ⟨typeAt s'.mem j, 0, 0⟩) (not_or.mpr ⟨hfile, hdir⟩) rfl,
      ?_, ?_⟩
    · rw [List.length_append, List.length_singleton]
    · rw [List.append_assoc]
      exact hseen

end SecondPass

/-! ## The volume -/

/-- The volume, and the record of its construction. -/
theorem construct_walked (image : TarImage) (behind : List Byte) (stale : ℕ → ℕ → ℕ) :
    ∃ s, (TarVolume.construct image behind stale).state = s.update 0 (fun n ↦
        { n with entryCount := (visits image.blockCount image.bytes 0).length }) ∧
      Walked image.blockCount
        ((headerChain image.blockCount image.bytes 0).countP (countsAtRoot image.bytes behind))
        (visits image.blockCount image.bytes 0) s ∧
      (TarVolume.construct image behind stale).nodeCount =
        1 + (headerChain image.blockCount image.bytes 0).length := by
  have hfirst := firstPass_eq image.blockCount image.bytes behind 0 ⟨1, 0, []⟩
  have hread : ∀ b ∈ (firstPass image.blockCount image.bytes behind 0 ⟨1, 0, []⟩).blocksRead,
      b < image.blockCount := firstPass_blocksRead fun b hb ↦ absurd hb List.not_mem_nil
  set counts := firstPass image.blockCount image.bytes behind 0 ⟨1, 0, []⟩ with hcounts
  rw [Nat.zero_add] at hfirst
  have hother : ∀ k ≠ 0, Function.update (fun _ ↦ TarNode.fresh) 0
      (volumeNode image counts.entryCount (stale 0)) k = TarNode.fresh := fun k hk ↦
    Function.update_of_ne hk ..
  have hnone : ∀ k e, (((Function.update (fun _ ↦ TarNode.fresh) 0
      (volumeNode image counts.entryCount (stale 0)) k).children.stores).lookup e) = none := by
    intro k e
    by_cases hk : k = 0
    · rw [hk, Function.update_self]
      rfl
    · rw [hother k hk]
      rfl
  have hstart : Walked image.blockCount
      ((headerChain image.blockCount image.bytes 0).countP (countsAtRoot image.bytes behind)) []
      { mem := image.bytes
        nodes := Function.update (fun _ ↦ TarNode.fresh) 0
          (volumeNode image counts.entryCount (stale 0))
        nextNode := 1
        blocksRead := counts.blocksRead
        inodes := [] } := by
    refine ⟨⟨hread, Nat.one_pos, fun n ↦ ?_, fun k e c hc ↦ ?_, fun k hk p hp ↦ ?_,
      fun k hk ↦ ?_⟩, rfl, hfirst.2, fun e ↦ ?_, ?_⟩
    · dsimp only
      simp only [List.not_mem_nil, false_iff]
      omega
    · rw [hnone] at hc
      cases hc
    · dsimp only at hp
      rw [hother k hk] at hp
      cases hp
    · dsimp only
      rw [hother k (Nat.ne_of_gt hk)]
      exact ⟨rfl, rfl⟩
    · rw [TarState.Slot, hnone]
      simp
    · refine iff_of_true (fun k hk e he ↦ ?_) fun w hw ↦ nomatch hw
      dsimp only at he
      rw [hother k hk] at he
      exact absurd he (Nat.not_lt_zero e)
  obtain ⟨hwalked, hlength⟩ := secondPass_walked (i := 0) stale hstart
  refine ⟨_, ?_, hwalked, hfirst.1⟩
  rw [List.nil_append] at hlength
  rw [← hlength]
  rfl

section Volume

variable {image : TarImage} {behind : List Byte} {stale : ℕ → ℕ → ℕ}

/-- The nodes of the volume are those that have been made, and the root has got its entries. -/
theorem node_of_state {v : TarVolume} {s : TarState} {count : ℕ}
    (hstate : v.state = s.update 0 fun n ↦ { n with entryCount := count }) :
    v.node 0 = { s.nodes 0 with entryCount := count } ∧ ∀ k ≠ 0, v.node k = s.nodes k := by
  refine ⟨?_, fun k hk ↦ ?_⟩
  · rw [TarVolume.node, hstate, TarState.update_nodes_self]
  · rw [TarVolume.node, hstate, TarState.update_nodes_of_ne _ hk]

/-- What is safe to mount fits. -/
theorem fits_of_safe (hsafe : (TarVolume.construct image behind stale).Safe image) :
    image.Fits behind := by
  obtain ⟨s, hstate, hs, hcount⟩ := construct_walked image behind stale
  set v := TarVolume.construct image behind stale
  set vs := visits image.blockCount image.bytes 0 with hvs
  obtain ⟨hroot, hnode⟩ := node_of_state hstate
  have hinodes : ∀ n, n ∈ v.state.inodes ↔ 0 < n ∧ n < s.nextNode := by
    rw [hstate]
    exact hs.inodes
  have hnext := hs.next
  have hslot : ∀ e < vs.length, s.Slot 0 e := by
    intro e he
    obtain ⟨child, -, hchild⟩ := hsafe.slots 0 e (by rw [hroot]; exact he)
    rw [hroot] at hchild
    exact Option.isSome_iff_exists.mpr ⟨child, hchild⟩
  refine ⟨fun w hw ↦ ?_, ?_, ?_, ?_⟩
  · obtain ⟨e, he, rfl⟩ := List.mem_iff_getElem.mp hw
    obtain ⟨w, hget, hstored⟩ := (hs.root e).mp (hslot e he)
    rw [List.getElem?_eq_getElem he] at hget
    exact Option.some.inj hget ▸ hstored
  · by_contra hmore
    obtain ⟨p, hp, hpe⟩ := List.lookup_isSome_iff.mp (hslot _ (not_le.mp hmore))
    have hlt := hsafe.stores 0 p (by rw [hroot]; exact hp)
    rw [hroot] at hlt
    have hcapacity := hs.capacity
    have heq := beq_iff_eq.mp hpe
    dsimp only at hlt
    omega
  · refine hs.full.mp fun k hk e he ↦ ?_
    obtain ⟨child, -, hchild⟩ := hsafe.slots k e (by rw [hnode k hk]; exact he)
    rw [hnode k hk] at hchild
    exact Option.isSome_iff_exists.mpr ⟨child, hchild⟩
  · by_contra hmore
    rw [← hvs] at hmore
    have hlast := hsafe.inodes (s.nextNode - 1) ((hinodes _).mpr (by omega))
    omega

/-- What fits is safe to mount. -/
theorem safe_of_fits (hfits : image.Fits behind) :
    (TarVolume.construct image behind stale).Safe image := by
  obtain ⟨s, hstate, hs, hcount⟩ := construct_walked image behind stale
  set v := TarVolume.construct image behind stale
  set vs := visits image.blockCount image.bytes 0 with hvs
  obtain ⟨hroot, hnode⟩ := node_of_state hstate
  have hinodes : ∀ n, n ∈ v.state.inodes ↔ 0 < n ∧ n < s.nextNode := by
    rw [hstate]
    exact hs.inodes
  have hnext := hs.next
  have hin : ∀ n < s.nextNode, n < v.nodeCount := fun n hn ↦ by
    have := hfits.nodes
    rw [← hvs] at this
    omega
  have hstored : ∀ k e, s.Slot k e → ∃ child < v.nodeCount,
      (s.nodes k).children.stores.lookup e = some child := by
    intro k e hke
    obtain ⟨child, hchild⟩ := Option.isSome_iff_exists.mp hke
    exact ⟨child, hin _ (hs.stored k e child hchild), hchild⟩
  refine ⟨?_, fun n hn ↦ hin n ((hinodes n).mp hn).2, fun k p hp ↦ ?_, fun k e he ↦ ?_⟩
  · rw [hstate]
    exact hs.blocksRead
  · by_cases hk : k = 0
    · subst hk
      rw [hroot] at hp ⊢
      have hsome : s.Slot 0 p.1 := List.lookup_isSome_iff.mpr ⟨p, hp, beq_self_eq_true _⟩
      obtain ⟨w, hget, -⟩ := (hs.root p.1).mp hsome
      obtain ⟨hlt, -⟩ := List.getElem?_eq_some_iff.mp hget
      have hcapacity := hs.capacity
      have hchildren := hfits.children
      rw [← hvs] at hchildren
      dsimp only
      omega
    · rw [hnode k hk] at hp ⊢
      exact hs.stores k hk p hp
  · by_cases hk : k = 0
    · subst hk
      rw [hroot] at he ⊢
      refine hstored 0 e ((hs.root e).mpr ⟨vs[e], List.getElem?_eq_getElem he, ?_⟩)
      exact hfits.stored _ (List.getElem_mem he)
    · rw [hnode k hk] at he ⊢
      exact hstored k e (hs.full.mpr hfits.found k hk e he)

end Volume

/-- **Which archives are safe to mount**: exactly those that fit their arrays. -/
theorem construct_safe (image : TarImage) (behind : List Byte) (stale : ℕ → ℕ → ℕ) :
    (TarVolume.construct image behind stale).Safe image ↔ image.Fits behind :=
  ⟨fits_of_safe, safe_of_fits⟩

/-- A symbolic link `a`. -/
def linkA : TarEntry := { fileA with type := tarTypeLinkSymbolic, data := [] }

/-- An archive of it alone, and two blocks of nulls. -/
def onlyLink : TarImage := .written [(linkA, noByte)] 2 (by decide) (by decide)

/-- The link takes a place among the children of the root, and nothing is stored there. -/
theorem not_safe_onlyLink : ¬ (TarVolume.construct onlyLink [] fun _ _ ↦ 0).Safe onlyLink := by
  intro hsafe
  obtain ⟨hentry, -⟩ := TarImage.laidOut_written [(linkA, noByte)] 2
    (by decide) (by decide)
  have hname : nameAt onlyLink.bytes 0 ≠ [] := hentry.nameAt ▸ linkA.name_ne_nil
  have htype : typeAt onlyLink.bytes 0 = tarTypeLinkSymbolic := hentry.typeAt
  have hmem : (⟨tarTypeLinkSymbolic, 0, 0⟩ : Visit) ∈
      visits onlyLink.blockCount onlyLink.bytes 0 := by
    rw [visits, dif_pos (by decide), if_neg hname, htype, if_neg (by decide), if_neg (by decide)]
    exact List.mem_cons_self
  rcases (fits_of_safe hsafe).stored _ hmem with h | h
  · exact absurd h (by decide)
  · exact absurd h (by decide)

end Tar

end Borrrdex
