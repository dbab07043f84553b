import Borrrdex.Basic
import Borrrdex.Kstd.LruCache

/-!
# The lifetime of ext2 nodes

`ext2_volume::find_dir` hands out `ext2_node` objects and remembers them by inode number in
`_inode_cache`, an `lru_cache` of 1600 entries whose destructor is `delete`.  How many file
descriptors refer to a node is counted in the node itself, by `fs_node::open` and
`fs_node::close`, and nobody asks: a lookup that finds the cache full deletes the node at the back
of the list, in use or not.

The scan of the directory is not modelled here; a lookup is given the inode number the scan ended
with and whether `read_inode` succeeded.  `Ext2Nodes` holds the nodes on the heap, the cache, the
open descriptors and the node the last lookup returned.  The main result says that a run keeps
every node in use alive **exactly when** each lookup that has to evict meets, at the back of the
list, a node that is not in use.
-/

set_option autoImplicit false

namespace Borrrdex

open FiniteMap

/-- What `find_dir`, `open` and `close` use of an `ext2_node`. -/
structure Ext2Node where
  inode : U32
  handleCount : U32

/-- The nodes of a volume, named by their addresses; `none` is an address nothing lives at.
`handles` has the node of every open `fs_fd_t`, and `last` is what the latest lookup returned. -/
structure Ext2Nodes where
  cache : LruCache U32 ℕ
  nodes : ℕ → Option Ext2Node
  next : ℕ
  handles : List ℕ
  last : Option ℕ

namespace Ext2Nodes

/-- `_inode_cache {1600, LRU_CACHE_CPP_DELETE}`. -/
def inodeCacheSize : ℕ := 1600

/-- A volume just mounted: the root directory's node, which is not in the cache. -/
def mounted : Ext2Nodes where
  cache := LruCache.new inodeCacheSize true
  nodes := fun n ↦ if n = 0 then some { inode := 2, handleCount := 0 } else none
  next := 1
  handles := []
  last := none

/-- `delete` on each of some nodes. -/
def delete (nodes : ℕ → Option Ext2Node) (freed : List ℕ) : ℕ → Option Ext2Node :=
  fun n ↦ if n ∈ freed then none else nodes n

/-- `ext2_volume::find_dir` from the point where the scan found the entry's inode number (`none`
for the paths that return `nullptr` before that); `readable` says that `read_inode` did not
return a negative value. -/
def findDir (s : Ext2Nodes) (entry : Option U32) (readable : Bool) : Option Ext2Nodes :=
  match entry with
  | none => some { s with last := none }
  | some inode =>
    match s.cache.get inode with
    | some node => some { s with last := some node }
    | none =>
      if readable then do
        let node : Ext2Node := { inode := inode, handleCount := 0 }
        let (cache, freed) ← s.cache.set inode s.next
        some { s with
          cache := cache
          nodes := delete (Function.update s.nodes s.next (some node)) freed
          next := s.next + 1
          last := some s.next }
      else some { s with last := none }

/-- `fs_node::open`; a node that is gone cannot be opened. -/
def openNode (s : Ext2Nodes) (n : ℕ) : Option Ext2Nodes := do
  let node ← s.nodes n
  some { s with
    nodes := Function.update s.nodes n (some { node with handleCount := node.handleCount + 1 })
    handles := n :: s.handles }

/-- `ext2_node::close`; `clean_node` does nothing. -/
def closeNode (s : Ext2Nodes) (n : ℕ) : Option Ext2Nodes := do
  let node ← s.nodes n
  some { s with
    nodes := Function.update s.nodes n (some { node with handleCount := node.handleCount - 1 })
    handles := s.handles.erase n }

/-- What happens on a volume. -/
inductive Op where
  | findDir (entry : Option U32) (readable : Bool)
  | openNode (n : ℕ)
  | closeNode (n : ℕ)

def step (s : Ext2Nodes) : Op → Option Ext2Nodes
  | .findDir entry readable => s.findDir entry readable
  | .openNode n => s.openNode n
  | .closeNode n => s.closeNode n

def run (s : Ext2Nodes) : List Op → Option Ext2Nodes
  | [] => some s
  | op :: ops => do
    let s ← s.step op
    s.run ops

/-- A node with an open descriptor, or the one the latest lookup returned. -/
def InUse (s : Ext2Nodes) (n : ℕ) : Prop := n ∈ s.handles ∨ s.last = some n

/-- What callers do: they open a node they just looked up or already have open (or the mount
point), and close only what is open. -/
def CallersOk (s : Ext2Nodes) : Op → Prop
  | .findDir _ _ => True
  | .openNode n => s.InUse n ∨ n = 0
  | .closeNode n => n ∈ s.handles

/-- **No node in use is deleted** by the step from `s` to `s'`: what was in use before it, and
what is in use after it, is alive after it. -/
def Kept (s s' : Ext2Nodes) : Prop :=
  ∀ n, s.InUse n ∨ s'.InUse n → ∃ node, s'.nodes n = some node

/-- The node an eviction would delete: the one at the back of a full cache. -/
def victim (s : Ext2Nodes) : Option ℕ :=
  if s.cache.map.keys.card < s.cache.capacity then none else s.cache.list.head?.map Prod.snd

/-- A lookup that is going to evict meets a node that is not in use. -/
def Spares (s : Ext2Nodes) : Op → Prop
  | .findDir (some inode) true => inode ∉ s.cache.map → ∀ n, s.victim = some n → ¬ s.InUse n
  | _ => True

/-! ## The invariant -/

/-- What every run keeps as long as nothing in use was deleted: the cache is in order, its two
copies agree, and the nodes it holds and the nodes in use are alive. -/
structure NodesInv (s : Ext2Nodes) : Prop where
  entries : s.cache.Entries
  capacity_eq : s.cache.capacity = inodeCacheSize
  destructor_eq : s.cache.destructor = true
  copies : ∀ e ∈ s.cache.list, s.cache.map.lookup e.1 = some e.2
  distinct : (s.cache.list.map Prod.snd).Nodup
  cached : ∀ e ∈ s.cache.list, ∃ node, s.nodes e.2 = some node
  fresh : ∀ n, s.next ≤ n → s.nodes n = none
  root : ∃ node, s.nodes 0 = some node
  root_uncached : ∀ e ∈ s.cache.list, e.2 ≠ 0
  alive : ∀ n, s.InUse n → ∃ node, s.nodes n = some node

theorem nodesInv_mounted : NodesInv mounted where
  entries := LruCache.entries_new _ _
  capacity_eq := rfl
  destructor_eq := rfl
  copies := fun _ he ↦ absurd he List.not_mem_nil
  distinct := List.nodup_nil
  cached := fun _ he ↦ absurd he List.not_mem_nil
  fresh := fun n hn ↦ if_neg (Nat.ne_of_gt hn)
  root := ⟨_, rfl⟩
  root_uncached := fun _ he ↦ absurd he List.not_mem_nil
  alive := fun n hn ↦ by
    rcases hn with hn | hn
    · exact absurd hn List.not_mem_nil
    · cases hn

theorem NodesInv.lt_next {s : Ext2Nodes} (h : NodesInv s) {n : ℕ} {node : Ext2Node}
    (hn : s.nodes n = some node) : n < s.next := by
  by_contra hge
  rw [h.fresh n (Nat.le_of_not_lt hge)] at hn
  cases hn

/-- What the cache answers is one of its list's nodes. -/
theorem NodesInv.mem_list_of_get {s : Ext2Nodes} (h : NodesInv s) {inode : U32} {n : ℕ}
    (hg : s.cache.get inode = some n) : (inode, n) ∈ s.cache.list := by
  have hmem := (h.entries.mem_map inode).mp (Finmap.mem_of_lookup_eq_some hg)
  obtain ⟨e, he, rfl⟩ := List.mem_map.mp hmem
  have hlook := h.copies e he
  rw [LruCache.get, hlook] at hg
  obtain rfl := Option.some.inj hg
  exact he

/-- A lookup that returns a node without touching the cache. -/
theorem NodesInv.setLast {s : Ext2Nodes} (h : NodesInv s) {last : Option ℕ}
    (hl : ∀ n, last = some n → ∃ node, s.nodes n = some node) :
    NodesInv { s with last := last } where
  entries := h.entries
  capacity_eq := h.capacity_eq
  destructor_eq := h.destructor_eq
  copies := h.copies
  distinct := h.distinct
  cached := h.cached
  fresh := h.fresh
  root := h.root
  root_uncached := h.root_uncached
  alive := fun n hn ↦ by
    rcases hn with hn | hn
    · exact h.alive n (Or.inl hn)
    · exact hl n hn

/-- Writing a node back leaves no address empty. -/
theorem alive_update (s : Ext2Nodes) (n : ℕ) (node' : Ext2Node) (m : ℕ)
    (hm : ∃ node, s.nodes m = some node) :
    ∃ node, Function.update s.nodes n (some node') m = some node := by
  obtain ⟨x, hx⟩ := hm
  rw [Function.update_apply]
  split
  · exact ⟨node', rfl⟩
  · exact ⟨x, hx⟩

/-- Opening and closing change a live node's count and the list of descriptors. -/
theorem NodesInv.setHandles {s : Ext2Nodes} (h : NodesInv s) {n : ℕ} {node : Ext2Node}
    (hn : s.nodes n = some node) (node' : Ext2Node) {handles : List ℕ}
    (hh : ∀ m ∈ handles, m = n ∨ m ∈ s.handles) :
    NodesInv { s with nodes := Function.update s.nodes n (some node'), handles := handles } := by
  have hup := alive_update s n node'
  refine ⟨h.entries, h.capacity_eq, h.destructor_eq, h.copies, h.distinct, ?_, ?_, ?_,
    h.root_uncached, ?_⟩
  · exact fun e he ↦ hup e.2 (h.cached e he)
  · intro m hm
    have hne : m ≠ n := by
      rintro rfl
      exact Nat.not_lt.mpr hm (h.lt_next hn)
    exact (Function.update_of_ne hne _ _).trans (h.fresh m hm)
  · exact hup 0 h.root
  · intro m hm
    rcases hm with hm | hm
    · rcases hh m hm with rfl | hm
      · exact hup m ⟨node, hn⟩
      · exact hup m (h.alive m (Or.inl hm))
    · exact hup m (h.alive m (Or.inr hm))

/-! ## A lookup that misses -/

/-- A lookup that misses leaves `s'`: the nodes `freed` at the back of the list are gone, the list
keeps `rest` and the map `map`, and the new node is at the front. -/
structure Missed (s : Ext2Nodes) (inode : U32) (s' : Ext2Nodes) (rest : List (U32 × ℕ))
    (map : Finmap fun _ : U32 ↦ ℕ) (freed : List ℕ) : Prop where
  eq : s' = { s with
    cache := { s.cache with list := rest ++ [(inode, s.next)], map := map.insert inode s.next }
    nodes := delete (Function.update s.nodes s.next
      (some { inode := inode, handleCount := 0 })) freed
    next := s.next + 1
    last := some s.next }
  freed_eq : freed = s.victim.toList
  notMem : inode ∉ map
  values : s.cache.list.map Prod.snd = freed ++ rest.map Prod.snd
  suffix : rest <:+ s.cache.list
  copies : ∀ e ∈ rest, map.lookup e.1 = some e.2
  entries : s'.cache.Entries

/-- What a lookup of an inode that is not cached does. -/
theorem NodesInv.findDir_miss {s : Ext2Nodes} (h : NodesInv s) {inode : U32}
    (hm : inode ∉ s.cache.map) : ∃ s' rest map freed,
    s.findDir (some inode) true = some s' ∧ Missed s inode s' rest map freed := by
  have hc : 1 ≤ s.cache.capacity := by rw [h.capacity_eq]; decide
  have hget : s.cache.get inode = none := Finmap.lookup_eq_none.mpr hm
  rcases h.entries.set_of_notMem hc hm s.next with ⟨hlt, hs⟩ | ⟨back, rest, hl, hcard, hs⟩
  · refine ⟨_, s.cache.list, s.cache.map, [], ?_, rfl, ?_, hm, rfl, List.suffix_refl _, h.copies,
      h.entries.set hc hs⟩
    · simp only [findDir, hget, if_true, hs, Option.bind_eq_bind, Option.bind_some]
    · rw [victim, if_pos hlt, Option.toList_none]
  · have hmap : inode ∉ s.cache.map.erase back.1 := fun hx ↦ hm (Finmap.mem_erase.mp hx).2
    refine ⟨_, rest, s.cache.map.erase back.1, [back.2], ?_, rfl, ?_, hmap, ?_, ?_,
      h.entries.copies_erase hl h.copies, h.entries.set hc hs⟩
    · simp only [findDir, hget, if_true, hs, Option.bind_eq_bind, Option.bind_some,
        h.destructor_eq]
    · rw [victim, if_neg (by omega), hl]
      rfl
    · rw [hl]
      rfl
    · rw [hl]
      exact List.suffix_cons back rest

/-- **A lookup keeps the invariant** when what it evicts is not in use. -/
theorem NodesInv.findDir_spares {s : Ext2Nodes} (h : NodesInv s) {inode : U32}
    (hm : inode ∉ s.cache.map) (hspare : ∀ n, s.victim = some n → ¬ s.InUse n) :
    ∃ s', s.findDir (some inode) true = some s' ∧ NodesInv s' ∧ Kept s s' := by
  obtain ⟨s', rest, map, freed, hf, hs⟩ := h.findDir_miss hm
  have hnext : s.nodes s.next = none := h.fresh s.next le_rfl
  have hmem : ∀ n ∈ freed, ∃ e ∈ s.cache.list, e.2 = n := by
    intro n hn
    exact List.mem_map.mp (hs.values ▸ List.mem_append_left _ hn)
  have hrest : ∀ e ∈ rest, e ∈ s.cache.list := fun e he ↦ hs.suffix.subset he
  have hnextfreed : s.next ∉ freed := by
    intro hn
    obtain ⟨e, he, hen⟩ := hmem _ hn
    obtain ⟨node, hnode⟩ := h.cached e he
    rw [hen, hnext] at hnode
    cases hnode
  -- a node that was alive and is not evicted stays alive
  have halive : ∀ n, n ∉ freed → (∃ node, s.nodes n = some node) → ∃ node,
      delete (Function.update s.nodes s.next (some { inode := inode, handleCount := 0 }))
        freed n = some node := by
    rintro n hn ⟨node, hnode⟩
    rw [delete, if_neg hn, Function.update_apply]
    split
    · exact ⟨_, rfl⟩
    · exact ⟨node, hnode⟩
  have hnew : ∃ node, delete (Function.update s.nodes s.next
      (some { inode := inode, handleCount := 0 })) freed s.next = some node := by
    rw [delete, if_neg hnextfreed, Function.update_self]
    exact ⟨_, rfl⟩
  have hused : ∀ n, s.InUse n → n ∉ freed := by
    intro n hn hfr
    rw [hs.freed_eq, Option.mem_toList] at hfr
    exact hspare n hfr hn
  have hnd := h.distinct
  rw [hs.values, List.nodup_append] at hnd
  have hentries := hs.entries
  rw [hs.eq] at hf hentries
  refine ⟨_, hf, ?_, ?_⟩
  · refine ⟨hentries, h.capacity_eq, h.destructor_eq, ?_, ?_, ?_, ?_, ?_, ?_, ?_⟩
    · exact LruCache.copies_append hs.copies hs.notMem s.next
    · rw [List.map_append, List.nodup_append]
      refine ⟨hnd.2.1, List.nodup_singleton _, ?_⟩
      rintro x hx y hy rfl
      obtain ⟨e, he, rfl⟩ := List.mem_map.mp hx
      obtain ⟨node, hnode⟩ := h.cached e (hrest e he)
      rw [List.mem_singleton.mp hy, hnext] at hnode
      cases hnode
    · intro e he
      rcases List.mem_append.mp he with he | he
      · refine halive e.2 (fun hfr ↦ ?_) (h.cached e (hrest e he))
        exact hnd.2.2 _ hfr _ (List.mem_map_of_mem he) rfl
      · rw [List.mem_singleton.mp he]
        exact hnew
    · intro n hn
      have hne : n ≠ s.next := Nat.ne_of_gt hn
      simp only [delete, Function.update_of_ne hne, h.fresh n (Nat.le_of_succ_le hn), ite_self]
    · refine halive 0 (fun h0 ↦ ?_) h.root
      obtain ⟨e, he, he0⟩ := hmem 0 h0
      exact h.root_uncached e he he0
    · intro e he
      rcases List.mem_append.mp he with he | he
      · exact h.root_uncached e (hrest e he)
      · rw [List.mem_singleton.mp he]
        obtain ⟨node, hnode⟩ := h.root
        exact Nat.ne_of_gt (h.lt_next hnode)
    · intro n hn
      rcases hn with hn | hn
      · exact halive n (hused n (Or.inl hn)) (h.alive n (Or.inl hn))
      · obtain rfl := Option.some.inj hn
        exact hnew
  · intro n hn
    rcases hn with hn | hn | hn
    · exact halive n (hused n hn) (h.alive n hn)
    · exact halive n (hused n (Or.inl hn)) (h.alive n (Or.inl hn))
    · obtain rfl := Option.some.inj hn
      exact hnew

/-- Whatever it evicts, a lookup that misses deletes the victim. -/
theorem NodesInv.findDir_deletes {s : Ext2Nodes} (h : NodesInv s) {inode : U32}
    (hm : inode ∉ s.cache.map) {n : ℕ} (hn : s.victim = some n) :
    ∃ s', s.findDir (some inode) true = some s' ∧ s'.nodes n = none := by
  obtain ⟨s', rest, map, freed, hf, hs⟩ := h.findDir_miss hm
  refine ⟨s', hf, ?_⟩
  have hfreed : n ∈ freed := by
    rw [hs.freed_eq, Option.mem_toList, hn]
  rw [hs.eq]
  exact if_pos hfreed

/-! ## Runs -/

/-- A step that deletes nothing keeps what is in use. -/
theorem NodesInv.kept_of_alive {s s' : Ext2Nodes} (h : NodesInv s) (h' : NodesInv s')
    (hmono : ∀ n, (∃ node, s.nodes n = some node) → ∃ node, s'.nodes n = some node) :
    Kept s s' := by
  intro n hn
  rcases hn with hn | hn
  · exact hmono n (h.alive n hn)
  · exact h'.alive n hn

/-- A step that spares the nodes in use keeps the invariant. -/
theorem NodesInv.step {s : Ext2Nodes} (h : NodesInv s) {op : Op} (hop : s.CallersOk op)
    (hspare : s.Spares op) : ∃ s', s.step op = some s' ∧ NodesInv s' ∧ Kept s s' := by
  -- a lookup that returns a live node, or none, and deletes nothing
  have hlast : ∀ last : Option ℕ, (∀ n, last = some n → ∃ node, s.nodes n = some node) →
      NodesInv { s with last := last } ∧ Kept s { s with last := last } := by
    intro last hl
    have h' := h.setLast hl
    exact ⟨h', h.kept_of_alive h' fun _ hn ↦ hn⟩
  cases op with
  | openNode n =>
    obtain ⟨node, hn⟩ : ∃ node, s.nodes n = some node := by
      rcases hop with hn | rfl
      · exact h.alive n hn
      · exact h.root
    have h' := h.setHandles hn { node with handleCount := node.handleCount + 1 }
      fun m (hm : m ∈ n :: s.handles) ↦ List.mem_cons.mp hm
    refine ⟨_, ?_, h', h.kept_of_alive h' (alive_update s n _)⟩
    simp only [Ext2Nodes.step, openNode, hn, Option.bind_eq_bind, Option.bind_some]
  | closeNode n =>
    obtain ⟨node, hn⟩ := h.alive n (Or.inl hop)
    have h' := h.setHandles hn { node with handleCount := node.handleCount - 1 }
      fun m (hm : m ∈ s.handles.erase n) ↦ Or.inr (List.mem_of_mem_erase hm)
    refine ⟨_, ?_, h', h.kept_of_alive h' (alive_update s n _)⟩
    simp only [Ext2Nodes.step, closeNode, hn, Option.bind_eq_bind, Option.bind_some]
  | findDir entry readable =>
    cases entry with
    | none => exact ⟨_, rfl, hlast none fun _ hn ↦ by cases hn⟩
    | some inode =>
      cases hg : s.cache.get inode with
      | some n =>
        refine ⟨{ s with last := some n }, ?_, hlast (some n) ?_⟩
        · simp only [Ext2Nodes.step, findDir, hg]
        · intro m hm
          obtain rfl := Option.some.inj hm
          exact h.cached _ (h.mem_list_of_get hg)
      | none =>
        have hm : inode ∉ s.cache.map := Finmap.lookup_eq_none.mp hg
        cases readable with
        | false =>
          refine ⟨{ s with last := none }, ?_, hlast none fun _ hn ↦ by cases hn⟩
          simp only [Ext2Nodes.step, findDir, hg, Bool.false_eq_true, if_false]
        | true => exact h.findDir_spares hm (hspare hm)

theorem run_append (s : Ext2Nodes) (past next : List Op) :
    s.run (past ++ next) = (s.run past).bind fun s' ↦ s'.run next := by
  induction past generalizing s with
  | nil => rfl
  | cons op past ih =>
    rw [List.cons_append, run, run]
    cases s.step op with
    | none => rfl
    | some s' => exact ih s'

theorem run_snoc {s s' : Ext2Nodes} {past : List Op} (h : s.run past = some s') (op : Op) :
    s.run (past ++ [op]) = s'.step op := by
  rw [run_append, h, Option.bind_some, run]
  cases s'.step op <;> rfl

/-- `P` holds of every operation of the run, in the state it meets. -/
def Throughout (P : Ext2Nodes → Op → Prop) (ops : List Op) : Prop :=
  ∀ past op, past ++ [op] <+: ops → ∀ s, mounted.run past = some s → P s op

theorem Throughout.mono {P : Ext2Nodes → Op → Prop} {past ops : List Op}
    (h : Throughout P ops) (hp : past <+: ops) : Throughout P past :=
  fun past' op hp' ↦ h past' op (hp'.trans hp)

theorem Throughout.init {P : Ext2Nodes → Op → Prop} {ops : List Op} {op : Op}
    (h : Throughout P (ops ++ [op])) : Throughout P ops :=
  h.mono (List.prefix_append _ _)

theorem throughout_nil (P : Ext2Nodes → Op → Prop) : Throughout P [] := by
  intro past op hp
  exact absurd (List.prefix_nil.mp hp) (by simp)

theorem Throughout.snoc {P : Ext2Nodes → Op → Prop} {ops : List Op} (h : Throughout P ops)
    {s : Ext2Nodes} (hs : mounted.run ops = some s) {op : Op} (hop : P s op) :
    Throughout P (ops ++ [op]) := by
  intro past op' hp s' hs'
  rcases List.prefix_concat_iff.mp hp with he | hp
  · obtain ⟨rfl, hop'⟩ := List.append_inj' he rfl
    obtain rfl := List.singleton_inj.mp hop'
    obtain rfl : s = s' := Option.some.inj (hs.symm.trans hs')
    exact hop
  · exact h past op' hp s' hs'

theorem exists_nodesInv {ops : List Op} (hok : Throughout CallersOk ops)
    (hspare : Throughout Spares ops) : ∃ s, mounted.run ops = some s ∧ NodesInv s := by
  induction ops using List.reverseRecOn with
  | nil => exact ⟨mounted, rfl, nodesInv_mounted⟩
  | append_singleton ops op ih =>
    obtain ⟨s, hs, h⟩ := ih hok.init hspare.init
    obtain ⟨s', hs', h', -⟩ := h.step (hok ops op (List.prefix_refl _) s hs)
      (hspare ops op (List.prefix_refl _) s hs)
    exact ⟨s', (run_snoc hs op).trans hs', h'⟩

/-- The run never deletes a node in use. -/
def KeptThroughout (ops : List Op) : Prop :=
  Throughout (fun s op ↦ ∃ s', s.step op = some s' ∧ Kept s s') ops

/-- **When the nodes in use survive**: exactly when every lookup of the run that has to evict
finds, at the back of the full cache, a node that no descriptor refers to and that the latest
lookup did not return. -/
theorem nodes_kept_iff (ops : List Op) (hok : Throughout CallersOk ops) :
    KeptThroughout ops ↔ Throughout Spares ops := by
  constructor
  · intro hkept
    induction ops using List.reverseRecOn with
    | nil => exact throughout_nil _
    | append_singleton ops op ih =>
      have hspare := ih hok.init hkept.init
      obtain ⟨s, hs, h⟩ := exists_nodesInv hok.init hspare
      intro past op' hp s₀ hs₀
      rcases List.prefix_concat_iff.mp hp with he | hp
      · obtain ⟨rfl, hop⟩ := List.append_inj' he rfl
        cases hop
        obtain rfl : s = s₀ := Option.some.inj (hs.symm.trans hs₀)
        obtain ⟨s', hs', hk⟩ := hkept past op (List.prefix_refl _) s hs
        match op, hs' with
        | .findDir (some inode) true, hs' =>
          intro hm n hv hn
          obtain ⟨s'', hs'', hdead⟩ := h.findDir_deletes hm hv
          obtain rfl : s'' = s' := Option.some.inj (hs''.symm.trans hs')
          obtain ⟨node, hnode⟩ := hk n (Or.inl hn)
          rw [hdead] at hnode
          cases hnode
        | .findDir (some _) false, _ => trivial
        | .findDir none _, _ => trivial
        | .openNode _, _ => trivial
        | .closeNode _, _ => trivial
      · exact hspare past op' hp s₀ hs₀
  · intro hspare past op hp s hs
    have hpre : past <+: ops := (List.prefix_append past [op]).trans hp
    obtain ⟨s₀, hs₀, h⟩ := exists_nodesInv (hok.mono hpre) (hspare.mono hpre)
    obtain rfl : s₀ = s := Option.some.inj (hs₀.symm.trans hs)
    obtain ⟨s', hs', -, hk⟩ := h.step (hok past op hp s₀ hs₀) (hspare past op hp s₀ hs₀)
    exact ⟨s', hs', hk⟩

/-- A file looked up, opened and closed. -/
theorem nodes_kept_iff_open_close :
    Throughout CallersOk [.findDir (some 12) true, .openNode 1, .closeNode 1] ∧
    (KeptThroughout [.findDir (some 12) true, .openNode 1, .closeNode 1] ↔
      Throughout Spares [.findDir (some 12) true, .openNode 1, .closeNode 1]) := by
  have h₁ : Throughout CallersOk ([] ++ [.findDir (some 12) true]) :=
    (throughout_nil _).snoc rfl trivial
  have h₂ : Throughout CallersOk ([.findDir (some 12) true] ++ [.openNode 1]) :=
    h₁.snoc rfl (Or.inl (Or.inr rfl))
  have h₃ : Throughout CallersOk ([.findDir (some 12) true, .openNode 1] ++ [.closeNode 1]) :=
    h₂.snoc rfl List.mem_cons_self
  exact ⟨h₃, nodes_kept_iff _ h₃⟩

/-! ### One lookup too many -/

/-- The lookup of the inode `i + 1`. -/
def lookUp (i : ℕ) : Op := .findDir (some (BitVec.ofNat 32 (i + 1))) true

/-- A file is looked up and opened, and `k` more are looked up. -/
def busyRun (k : ℕ) : List Op :=
  [lookUp 0, .openNode 1] ++ (List.range k).map fun i ↦ lookUp (i + 1)

theorem busyRun_succ (k : ℕ) : busyRun (k + 1) = busyRun k ++ [lookUp (k + 1)] := by
  rw [busyRun, List.range_succ, List.map_append, ← List.append_assoc]
  rfl

/-- A lookup of a new inode with room in the cache adds it and evicts nothing. -/
theorem NodesInv.findDir_room {s : Ext2Nodes} (h : NodesInv s) {inode : U32}
    (hm : inode ∉ s.cache.map) (hroom : s.cache.list.length < inodeCacheSize) :
    ∃ s', s.findDir (some inode) true = some s' ∧ NodesInv s' ∧ s'.handles = s.handles ∧
      s'.last = some s.next ∧ s'.next = s.next + 1 ∧
      s'.cache.list = s.cache.list ++ [(inode, s.next)] := by
  have hv : s.victim = none := by
    rw [victim, if_pos]
    rwa [h.entries.card_eq, h.capacity_eq]
  obtain ⟨s', hs', h', -⟩ := h.findDir_spares hm (by simp [hv])
  obtain ⟨s'', rest, map, freed, hs'', hmiss⟩ := h.findDir_miss hm
  obtain rfl : s'' = s' := Option.some.inj (hs''.symm.trans hs')
  have hfreed : freed = [] := by rw [hmiss.freed_eq, hv, Option.toList_none]
  have hrest : rest = s.cache.list := by
    refine hmiss.suffix.eq_of_length ?_
    have hlen := congrArg List.length hmiss.values
    simpa [hfreed] using hlen.symm
  refine ⟨s'', hs', h', ?_, ?_, ?_, ?_⟩
  · rw [hmiss.eq]
  · rw [hmiss.eq]
  · rw [hmiss.eq]
  · rw [hmiss.eq, hrest]

/-- A later inode is not among the first ones looked up. -/
theorem NodesInv.notMem_of_list {s : Ext2Nodes} (h : NodesInv s) {k : ℕ} (hk : k + 2 < 2 ^ 32)
    (hl : s.cache.list = (List.range (k + 1)).map fun i ↦ (BitVec.ofNat 32 (i + 1), i + 1)) :
    BitVec.ofNat 32 (k + 1 + 1) ∉ s.cache.map := by
  rw [h.entries.mem_map, hl, List.map_map, List.mem_map]
  rintro ⟨i, hi, he⟩
  have hi := List.mem_range.mp hi
  have h2 := congrArg BitVec.toNat he
  simp only [Function.comp_apply, BitVec.toNat_ofNat] at h2
  omega

/-- What is left after `k` more lookups, as long as the cache has room. -/
theorem busyRun_state {k : ℕ} (hk : k < inodeCacheSize) :
    Throughout CallersOk (busyRun k) ∧ ∃ s, mounted.run (busyRun k) = some s ∧ NodesInv s ∧
      s.handles = [1] ∧ s.next = k + 2 ∧
      s.cache.list = (List.range (k + 1)).map fun i ↦ (BitVec.ofNat 32 (i + 1), i + 1) := by
  induction k with
  | zero =>
    have hm : BitVec.ofNat 32 1 ∉ mounted.cache.map := Finmap.notMem_empty
    obtain ⟨s, hs, h, hh, hlast, hn, hl⟩ := nodesInv_mounted.findDir_room hm (by decide)
    have hrun : mounted.run ([] ++ [lookUp 0]) = some s := by
      have hnil : mounted.run [] = some mounted := rfl
      rw [run_snoc hnil, lookUp, step]
      exact hs
    have huse : s.InUse 1 := Or.inr hlast
    have hok : Throughout CallersOk ([lookUp 0] ++ [.openNode 1]) :=
      ((throughout_nil _).snoc rfl trivial).snoc hrun (Or.inl huse)
    obtain ⟨node, hnode⟩ := h.alive 1 huse
    have h' := h.setHandles hnode { node with handleCount := node.handleCount + 1 }
      fun m (hmem : m ∈ 1 :: s.handles) ↦ List.mem_cons.mp hmem
    refine ⟨hok, _, (run_snoc hrun (.openNode 1)).trans ?_, h', ?_, hn, ?_⟩
    · simp only [step, openNode, hnode, Option.bind_eq_bind, Option.bind_some]
    · rw [hh]
      rfl
    · rw [hl]
      rfl
  | succ k ih =>
    obtain ⟨hok, s, hs, h, hh, hn, hl⟩ := ih (Nat.lt_of_succ_lt hk)
    have hm := h.notMem_of_list (by rw [inodeCacheSize] at hk; omega) hl
    obtain ⟨s', hs', h', hh', -, hn', hl'⟩ := h.findDir_room hm (by simpa [hl] using hk)
    rw [busyRun_succ]
    refine ⟨hok.snoc hs trivial, s', (run_snoc hs _).trans hs', h', hh'.trans hh, ?_, ?_⟩
    · rw [hn', hn]
    · rw [hl', hl, hn, List.range_succ (n := k + 1), List.map_append]
      rfl

/-- **An open file is deleted**: after one file is looked up and opened and 1599 others are looked
up, the lookup of one more deletes the open file's node. -/
theorem open_node_deleted :
    Throughout CallersOk (busyRun 1600) ∧ ¬ KeptThroughout (busyRun 1600) ∧
      ∃ s, mounted.run (busyRun 1600) = some s ∧ 1 ∈ s.handles ∧ s.nodes 1 = none := by
  obtain ⟨hok, s, hs, h, hh, -, hl⟩ := busyRun_state (k := 1599) (by decide)
  have hm := h.notMem_of_list (by decide) hl
  have hv : s.victim = some 1 := by
    rw [victim, if_neg, hl, List.range_succ_eq_map]
    · rfl
    · rw [h.entries.card_eq, h.capacity_eq, hl]
      simp [inodeCacheSize]
  obtain ⟨s', hs', hdead⟩ := h.findDir_deletes hm hv
  have hopen : 1 ∈ s.handles := by rw [hh]; exact List.mem_cons_self
  rw [show 1600 = 1599 + 1 from rfl, busyRun_succ]
  refine ⟨hok.snoc hs trivial, ?_, s', (run_snoc hs _).trans hs', ?_, hdead⟩
  · intro hkept
    obtain ⟨s'', hs'', hk⟩ := hkept _ _ (List.prefix_refl _) s hs
    obtain rfl : s' = s'' := Option.some.inj (hs'.symm.trans hs'')
    obtain ⟨node, hnode⟩ := hk 1 (Or.inl (Or.inl hopen))
    rw [hdead] at hnode
    cases hnode
  · obtain ⟨s'', rest, map, freed, hs'', hmiss⟩ := h.findDir_miss hm
    obtain rfl : s' = s'' := Option.some.inj (hs'.symm.trans hs'')
    rw [hmiss.eq]
    exact hopen

end Ext2Nodes

end Borrrdex
