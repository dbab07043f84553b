import Borrrdex.Syscalls.FdSafety

/-!
# Handle counts

`_handle_count` is meant to be the number of descriptors that refer to the node, over all processes.
It is raised before a handle has found its slot and lowered before the slot is emptied, so between
two system calls the two numbers agree, and within one they differ by the handles that are *in
hand*: opened and not in a table yet, or out of it and not closed.  `Balanced k hand` says that the
counts are right for the tables of `k` and such a list.  Every operation on the tables moves nodes
between the tables and the list, and `open` and `close` put nodes on it and take them off.

`sys_dup` drops a handle that it has in hand when it is asked for a descriptor beyond the table.
`Leaks` is that case, and without it all calls end with nothing in hand.
-/

set_option autoImplicit false

namespace Borrrdex

open Handlers Sys

/-! ## Counts and what they should be -/

/-- The node is as it should be with `d` handles: it has counted them, if its class keeps count, and
if it is the end of a pipe it is there as long as there are any. -/
structure CountedNode.Has (node : CountedNode) (d : ℕ) : Prop where
  count : node.deleted = false → node.kind ≠ .tar → node.handleCount.toNat = d
  pipe : node.kind.isPipe = true → (node.deleted = true ↔ d = 0)

/-- All nodes are, with the handles that are due to them. -/
def Settled (counted : ℕ → Option CountedNode) (due : ℕ → ℕ) : Prop :=
  ∀ n node, counted n = some node → node.Has (due n)

namespace Settled

variable {counted : ℕ → Option CountedNode} {due : ℕ → ℕ} {n : ℕ}

theorem update (h : Settled counted due) {node : Option CountedNode} {d : ℕ}
    (hn : ∀ node' ∈ node, node'.Has d) :
    Settled (Function.update counted n node) (Function.update due n d) := by
  intro m node' hm
  by_cases hmn : m = n
  · subst hmn
    rw [Function.update_self] at hm ⊢
    exact hn node' hm
  · rw [Function.update_of_ne hmn] at hm ⊢
    exact h m node' hm

/-- `_handle_count++`. -/
theorem addHandleTo (h : Settled counted due) (hlt : due n < 2 ^ 31)
    (hpipe : ∀ node, counted n = some node → node.kind.isPipe = true → node.deleted = false) :
    Settled (addHandleTo counted n) (Function.update due n (due n + 1)) := by
  refine h.update fun node' hnode' ↦ ?_
  obtain ⟨node, hnode, rfl⟩ := Option.map_eq_some_iff.mp hnode'
  refine ⟨fun hdel hkind ↦ ?_, fun hp ↦ ?_⟩
  · have hcount := (h n node hnode).count hdel hkind
    rw [BitVec.toNat_add, hcount]
    exact Nat.mod_eq_of_lt (by simp; omega)
  · exact iff_of_false (by simp [hpipe node hnode hp]) (Nat.succ_ne_zero _)

/-- A node that keeps no count may lose a handle and stay as it is. -/
theorem closeNode_same (h : Settled counted due) (hdue : due n ≠ 0)
    (hn : ∀ node, counted n = some node → node.deleted = true ∨ node.kind = .tar) :
    Settled counted (Function.update due n (due n - 1)) := by
  intro m node hm
  by_cases hmn : m = n
  · subst hmn
    rw [Function.update_self]
    have hhas := h m node hm
    have hnot := hn node hm
    refine ⟨fun hdel hkind ↦ by simp_all, fun hpipe ↦ ?_⟩
    -- the end of a pipe that has been deleted has no handles
    have hiff := hhas.pipe hpipe
    have : node.deleted = true := hnot.resolve_right fun hkind ↦ by
      simp [hkind, NodeKind.isPipe] at hpipe
    exact absurd (hiff.mp this) hdue
  · rw [Function.update_of_ne hmn]
    exact h m node hm

/-- `_widowed` does not matter. -/
theorem widow (h : Settled counted due) (other : ℕ) :
    Settled (Function.update counted other
      ((counted other).map fun o ↦ { o with widowed := true })) due := by
  rw [← Function.update_eq_self other due]
  refine h.update fun node hnode ↦ ?_
  obtain ⟨node', hnode', rfl⟩ := Option.map_eq_some_iff.mp hnode
  obtain ⟨hcount, hpipe⟩ := h other node' hnode'
  exact ⟨hcount, hpipe⟩

theorem toNat_sub_one {c : U32} {d : ℕ} (hc : c.toNat = d) (hd : d ≠ 0) :
    (c - 1).toNat = d - 1 := by
  have hlt := c.isLt
  rw [BitVec.toNat_sub, hc]
  simp
  omega

/-- The same for a node that does keep count. -/
theorem closeNode_count (h : Settled counted due) {node : CountedNode}
    (hhas : node.Has (due n)) (hdue : due n ≠ 0) (hdel : node.deleted = false)
    (hkind : node.kind ≠ .tar) (hpipe : node.kind.isPipe = true → node.handleCount - 1 ≠ 0) :
    Settled (Function.update counted n (some { node with handleCount := node.handleCount - 1 }))
      (Function.update due n (due n - 1)) := by
  have hcount := toNat_sub_one (hhas.count hdel hkind) hdue
  refine h.update fun node' hnode' ↦ ?_
  cases hnode'
  refine ⟨fun _ _ ↦ hcount, fun hp ↦ iff_of_false (by simp [hdel]) fun hzero ↦ hpipe hp ?_⟩
  exact BitVec.eq_of_toNat_eq (hcount.trans hzero)

/-- **`close`** takes one handle off. -/
theorem closeNode (h : Settled counted due) (hdue : due n ≠ 0) :
    Settled (closeNode counted n) (Function.update due n (due n - 1)) := by
  rw [Borrrdex.closeNode]
  split
  · next hnone => exact h.closeNode_same hdue (by simp [hnone])
  · next node hnode =>
    have hhas := h n node hnode
    split
    · next hdel => exact h.closeNode_same hdue (by simp [hnode, hdel])
    · next hdel =>
      rw [Bool.not_eq_true] at hdel
      split
      · next hkind => exact h.closeNode_same hdue (by simp [hnode, hkind])
      · next hkind =>
        exact h.closeNode_count hhas hdue hdel (by simp [hkind]) (by simp [hkind, NodeKind.isPipe])
      · next hkind =>
        exact h.closeNode_count hhas hdue hdel (by simp [hkind]) (by simp [hkind, NodeKind.isPipe])
      · next other hkind =>
        dsimp only
        split
        · next hzero =>
          refine (h.widow other).update fun node' hnode' ↦ ?_
          cases hnode'
          have hcount := toNat_sub_one (hhas.count hdel (by simp [hkind])) hdue
          rw [hzero] at hcount
          exact ⟨fun hdel' ↦ by simp at hdel', fun _ ↦ iff_of_true rfl hcount.symm⟩
        · next hne => exact h.closeNode_count hhas hdue hdel (by simp [hkind]) fun _ ↦ hne

end Settled

/-! ## The kernel between calls and within them -/

namespace KernelState

/-- The slot refers to node `n`. -/
def refers (k : Kernel) (n : ℕ) : Option ℕ → Bool
  | none => false
  | some h => (k.handles h).node = n

/-- The number of slots of live processes that refer to node `n`. -/
def references (k : Kernel) (n : ℕ) : ℕ :=
  ∑ p ∈ k.rest.live, (k.rest.tables p).countP (k.refers n)

/-- The handles of a node: in the tables and in hand. -/
def due (k : Kernel) (hand : List ℕ) (n : ℕ) : ℕ := k.references n + hand.count n

theorem references_le_slots (k : Kernel) (n : ℕ) : k.references n ≤ k.rest.slots :=
  Finset.sum_le_sum fun _ _ ↦ List.countP_le_length

/-- The node of the handle in a slot, if there is one. -/
def nodeIn (k : Kernel) (slot : Option ℕ) : List ℕ := slot.toList.map fun h ↦ (k.handles h).node

theorem nodeIn_congr {k k' : Kernel} (h : k'.handles = k.handles) : k'.nodeIn = k.nodeIn := by
  funext slot
  rw [nodeIn, h, nodeIn]

theorem count_nodeIn (k : Kernel) (slot : Option ℕ) (n : ℕ) :
    (k.nodeIn slot).count n = if k.refers n slot then 1 else 0 := by
  cases slot with
  | none => rfl
  | some h => simp [nodeIn, refers, List.count_singleton]

end KernelState

/-- There is a device at this address. -/
def DeviceAt (counted : ℕ → Option CountedNode) (n : ℕ) : Prop :=
  ∃ node, counted n = some node ∧ node.kind = .device ∧ node.deleted = false

theorem DeviceAt.alive {d : Descriptors} {n : ℕ} (h : DeviceAt d.counted n) : d.Alive n := by
  obtain ⟨node, hnode, -, hdel⟩ := h
  exact ⟨node, hnode, hdel⟩

/-- **The accounting**, with the nodes in `hand` opened and not in a table, or taken out of one and
not closed. -/
structure Ledger (k : Kernel) (hand : List ℕ) : Prop where
  fits : k.rest.slots ≤ FdTable.maxSlots
  settled : Settled k.rest.counted (k.due hand)
  made : ∀ n, k.due hand n ≠ 0 → n < k.rest.nextNode
  fresh : ∀ n, k.rest.nextNode ≤ n → k.rest.counted n = none
  handle_lt : ∀ p ∈ k.rest.live, ∀ h, some h ∈ k.rest.tables p → h < k.rest.nextFd
  root : DeviceAt k.rest.counted KernelState.root
  few : k.rest.slots + hand.length < 2 ^ 31

/-- The accounting while a process is running. -/
structure Balanced (k : Kernel) (hand : List ℕ) : Prop extends Sized k, Ledger k hand

namespace Balanced

variable {k k' : Kernel} {hand hand' : List ℕ} {n : ℕ}

theorem due_lt (h : Balanced k hand) (n : ℕ) : k.due hand n < 2 ^ 31 := by
  have h1 := k.references_le_slots n
  have h2 : hand.count n ≤ hand.length := List.count_le_length
  have h3 := h.few
  rw [KernelState.due]
  omega

/-- The tables and the hand may change as long as together they have the same handles. -/
theorem congr (h : Balanced k hand) (hsized : Sized k')
    (hcounted : k'.rest.counted = k.rest.counted) (hnext : k'.rest.nextNode = k.rest.nextNode)
    (hdue : ∀ n, k'.due hand' n = k.due hand n)
    (hlt : ∀ p ∈ k'.rest.live, ∀ h, some h ∈ k'.rest.tables p → h < k'.rest.nextFd)
    (hfew : k'.rest.slots + hand'.length < 2 ^ 31) : Balanced k' hand' where
  toSized := hsized
  settled := by
    rw [hcounted, show k'.due hand' = k.due hand from funext hdue]
    exact h.settled
  made n := by
    rw [hdue, hnext]
    exact h.made n
  fresh n := by
    rw [hcounted, hnext]
    exact h.fresh n
  handle_lt := hlt
  root := by
    rw [hcounted]
    exact h.root
  few := hfew

theorem perm (h : Balanced k hand) (hp : hand.Perm hand') : Balanced k hand' := by
  refine h.congr h.toSized rfl rfl (fun n ↦ ?_) h.handle_lt ?_
  · rw [KernelState.due, KernelState.due, hp.count_eq]
  · rw [← hp.length_eq]
    exact h.few

theorem references_congr (h : ∀ i, (k'.handles i).node = (k.handles i).node)
    (hlive : k'.rest.live = k.rest.live) (htables : k'.rest.tables = k.rest.tables) (n : ℕ) :
    k'.references n = k.references n := by
  have hrefers : k'.refers n = k.refers n := by
    funext slot
    cases slot with
    | none => rfl
    | some i => simp only [KernelState.refers, h]
  rw [KernelState.references, KernelState.references, hlive, htables, hrefers]

theorem quiet (h : Balanced k hand) (hq : Quiet k k') : Balanced k' hand := by
  have hsame := hq.sameTables
  refine h.congr (hsame.sized h.toSized) (by rw [hq.rest]) (by rw [hq.rest]) (fun n ↦ ?_) ?_ ?_
  · rw [KernelState.due, references_congr hq.node hsame.live hsame.tables, KernelState.due]
  · rw [hq.rest]
    exact h.handle_lt
  · rw [hsame.slots]
    exact h.few

/-- A new handle is in nobody's table. -/
theorem references_newFd
    (hlt : ∀ p ∈ k.rest.live, ∀ i, some i ∈ k.rest.tables p → i < k.rest.nextFd) (fd : FsFd)
    (n : ℕ) : (k.newFd fd).2.references n = k.references n := by
  refine Finset.sum_congr rfl fun p hp ↦ List.countP_congr fun slot hslot ↦ ?_
  cases slot with
  | none => rfl
  | some i =>
    have hne : i ≠ k.rest.nextFd := (hlt p hp i hslot).ne
    simp only [KernelState.refers, KernelState.newFd, Function.update_of_ne hne]

theorem newFd (h : Balanced k hand) (fd : FsFd) : Balanced (k.newFd fd).2 hand := by
  refine h.congr ⟨h.current, h.fits⟩ rfl rfl (fun n ↦ ?_) (fun p hp i hi ↦ ?_) h.few
  · rw [KernelState.due, references_newFd h.handle_lt, KernelState.due]
  · exact (h.handle_lt p hp i hi).trans (Nat.lt_succ_self _)

theorem due_cons (k : Kernel) (hand : List ℕ) (n : ℕ) :
    k.due (n :: hand) = Function.update (k.due hand) n (k.due hand n + 1) := by
  funext m
  by_cases hmn : m = n
  · subst hmn
    rw [Function.update_self, KernelState.due, List.count_cons_self, KernelState.due]
    omega
  · rw [Function.update_of_ne hmn, KernelState.due, List.count_cons_of_ne (Ne.symm hmn),
      KernelState.due]

end Balanced

/-- What `_handle_count++` and `close` leave alone: an address without a node stays one, and a
device stays. -/
structure KeepsDevices (counted counted' : ℕ → Option CountedNode) : Prop where
  empty : ∀ m, counted m = none → counted' m = none
  device : ∀ m, DeviceAt counted m → DeviceAt counted' m

namespace KeepsDevices

variable {counted : ℕ → Option CountedNode} {n : ℕ}

theorem refl (counted : ℕ → Option CountedNode) : KeepsDevices counted counted :=
  ⟨fun _ h ↦ h, fun _ h ↦ h⟩

theorem trans {c₁ c₂ c₃ : ℕ → Option CountedNode} (h : KeepsDevices c₁ c₂)
    (h' : KeepsDevices c₂ c₃) : KeepsDevices c₁ c₃ :=
  ⟨fun m hm ↦ h'.empty m (h.empty m hm), fun m hm ↦ h'.device m (h.device m hm)⟩

theorem update {node' : CountedNode} (hn : counted n ≠ none)
    (h : ∀ node, counted n = some node → node.kind = .device → node.deleted = false →
      node'.kind = .device ∧ node'.deleted = false) :
    KeepsDevices counted (Function.update counted n (some node')) := by
  constructor
  · intro m hm
    rw [Function.update_of_ne (by rintro rfl; exact hn hm), hm]
  · rintro m ⟨node, hm, hkind, hdel⟩
    by_cases hmn : m = n
    · subst hmn
      exact ⟨node', Function.update_self .., h node hm hkind hdel⟩
    · exact ⟨node, (Function.update_of_ne hmn ..).trans hm, hkind, hdel⟩

theorem modify {f : CountedNode → CountedNode}
    (hf : ∀ node, (f node).kind = node.kind ∧ (f node).deleted = node.deleted) :
    KeepsDevices counted (Function.update counted n ((counted n).map f)) := by
  cases hn : counted n with
  | none =>
    rw [Option.map_none, ← hn, Function.update_eq_self]
    exact .refl counted
  | some node =>
    refine .update (by simp [hn]) fun node' hnode' hkind hdel ↦ ?_
    cases hn.symm.trans hnode'
    rw [(hf node).1, (hf node).2]
    exact ⟨hkind, hdel⟩

theorem closeNode (counted : ℕ → Option CountedNode) (n : ℕ) :
    KeepsDevices counted (closeNode counted n) := by
  rw [Borrrdex.closeNode]
  split
  · exact .refl counted
  · next node hnode =>
    have hn : counted n ≠ none := by simp [hnode]
    dsimp only
    split
    · exact .refl counted
    · next hdel =>
      split
      · exact .refl counted
      · exact .update hn (by simp_all)
      · exact .update hn (by simp_all)
      · next other hkind =>
        split
        · refine .trans (modify fun _ ↦ ⟨?_, ?_⟩) (.update ?_ ?_)
          · rfl
          · rfl
          · rw [Function.update_apply]
            split <;> simp_all
          · rw [Function.update_apply]
            split <;> simp_all
        · exact .update hn (by simp_all)

end KeepsDevices

namespace Balanced

variable {k k' : Kernel} {hand : List ℕ} {n : ℕ}

/-- Change the nodes and the hand, with the tables as they are. -/
theorem rebuild (h : Balanced k hand) (hand' : List ℕ) (counted : ℕ → Option CountedNode)
    (next : ℕ) (hsettled : Settled counted (k.due hand'))
    (hmade : ∀ n, k.due hand' n ≠ 0 → n < next) (hfresh : ∀ n, next ≤ n → counted n = none)
    (hroot : DeviceAt counted KernelState.root)
    (hfew : k.rest.slots + hand'.length < 2 ^ 31) :
    Balanced { k with rest := { k.rest with counted := counted, nextNode := next } } hand' where
  current := h.current
  fits := h.fits
  settled := hsettled
  made := hmade
  fresh := hfresh
  handle_lt := h.handle_lt
  root := hroot
  few := hfew

/-- Change the counts and the hand. -/
theorem recount {hand' : List ℕ} {counted : ℕ → Option CountedNode} (h : Balanced k hand)
    (hkeeps : KeepsDevices k.rest.counted counted) (hsettled : Settled counted (k.due hand'))
    (hmade : ∀ n, k.due hand' n ≠ 0 → n < k.rest.nextNode)
    (hfew : k.rest.slots + hand'.length < 2 ^ 31) :
    Balanced { k with rest := { k.rest with counted := counted } } hand' :=
  h.rebuild _ _ _ hsettled hmade (fun n hn ↦ hkeeps.empty n (h.fresh n hn))
    (hkeeps.device _ h.root) hfew

theorem lt_nextNode (h : Balanced k hand) (halive : k.rest.Alive n) : n < k.rest.nextNode := by
  obtain ⟨node, hnode, -⟩ := halive
  by_contra hle
  rw [h.fresh n (not_lt.mp hle)] at hnode
  cases hnode

/-- `_handle_count++`, with the node then in hand.  The node is there, or has a handle already. -/
theorem addHandle (h : Balanced k hand) (hn : k.rest.Alive n ∨ k.due hand n ≠ 0)
    (hfew : hand.length ≤ 8) : Balanced (k.addHandle n) (n :: hand) := by
  refine h.recount (.modify fun _ ↦ ⟨rfl, rfl⟩) ?_ (fun m hm ↦ ?_) ?_
  · rw [due_cons]
    refine h.settled.addHandleTo (h.due_lt n) fun node hnode hpipe ↦ ?_
    obtain ⟨node', hnode', hdel⟩ | hdue := hn
    · exact Option.some.inj (hnode'.symm.trans hnode) ▸ hdel
    · have := ((h.settled n node hnode).pipe hpipe).not.mpr hdue
      simpa using this
  · rw [due_cons] at hm
    by_cases hmn : m = n
    · exact hmn ▸ hn.elim h.lt_nextNode (h.made n)
    · rw [Function.update_of_ne hmn] at hm
      exact h.made m hm
  · have hfits := h.fits
    simp only [FdTable.maxSlots] at hfits
    rw [List.length_cons]
    omega

theorem openNode (h : Balanced k hand) (halive : k.rest.Alive n) (flags : U32)
    (hfew : hand.length ≤ 8) : Balanced (k.openNode n flags).2 (n :: hand) :=
  (h.newFd _).addHandle (.inl halive) hfew

theorem due_cons_ne_zero (k : Kernel) (hand : List ℕ) (n : ℕ) : k.due (n :: hand) n ≠ 0 := by
  rw [due_cons, Function.update_self]
  exact Nat.succ_ne_zero _

/-- Take a node out of hand. -/
theorem drop {counted : ℕ → Option CountedNode} (h : Balanced k (n :: hand))
    (hkeeps : KeepsDevices k.rest.counted counted)
    (hsettled : Settled counted
      (Function.update (k.due (n :: hand)) n (k.due (n :: hand) n - 1))) :
    Balanced { k with rest := { k.rest with counted := counted } } hand := by
  have hless : Function.update (k.due (n :: hand)) n (k.due (n :: hand) n - 1) = k.due hand := by
    rw [due_cons, Function.update_self, Function.update_idem, Nat.add_sub_cancel,
      Function.update_eq_self]
  have hfew := h.few
  rw [List.length_cons] at hfew
  refine h.recount hkeeps (hless ▸ hsettled) (fun m hm ↦ h.made m ?_) (by omega)
  rw [due_cons]
  by_cases hmn : m = n
  · subst hmn
    rw [Function.update_self]
    exact Nat.succ_ne_zero _
  · rwa [Function.update_of_ne hmn]

/-- `fs::close` of what is in hand. -/
theorem close {slot : Option ℕ} (h : Balanced k (k.nodeIn slot ++ hand)) :
    Balanced (k.close slot) hand := by
  cases slot with
  | none => exact h
  | some i => exact drop h (.closeNode _ _) (h.settled.closeNode (due_cons_ne_zero k hand _))

/-- A handle of a node that keeps no count may get lost. -/
theorem forget (h : Balanced k (n :: hand))
    (hn : ∀ node, k.rest.counted n = some node → node.deleted = true ∨ node.kind = .tar) :
    Balanced k hand :=
  drop h (.refl _) (h.settled.closeNode_same (due_cons_ne_zero k hand n) hn)

/-! ## The tables -/

/-- Another table for the calling process, with what it has more or less taken from the hand. -/
theorem setTable {hand' : List ℕ} {t : FdTable ℕ} (h : Balanced k hand)
    (hsized : Sized (k.setTable t))
    (hcount : ∀ n, t.countP (k.refers n) + hand'.count n =
      k.table.countP (k.refers n) + hand.count n)
    (hlt : ∀ i, some i ∈ t → i < k.rest.nextFd)
    (hfew : (k.setTable t).rest.slots + hand'.length < 2 ^ 31) :
    Balanced (k.setTable t) hand' := by
  refine h.congr hsized rfl rfl (fun n ↦ ?_) (fun p hp i hi ↦ ?_) hfew
  · have hsum : (k.setTable t).references n + k.table.countP (k.refers n) =
        k.references n + t.countP (k.refers n) :=
      sum_comp_update h.current k.rest.tables (fun t ↦ t.countP (k.refers n)) t
    have := hcount n
    rw [KernelState.due, KernelState.due]
    omega
  · by_cases hpc : p = k.rest.current
    · subst hpc
      exact hlt i (by simpa [KernelState.setTable] using hi)
    · refine h.handle_lt p hp i ?_
      simpa [KernelState.setTable, Function.update_of_ne hpc] using hi

theorem length_nodeIn_le (k : Kernel) (slot : Option ℕ) : (k.nodeIn slot).length ≤ 1 := by
  cases slot <;> simp [KernelState.nodeIn]

theorem close_setTable (k : Kernel) (slot : Option ℕ) (t : FdTable ℕ) :
    (k.close slot).setTable t = (k.setTable t).close slot := by
  cases slot <;> rfl

/-- Fill one slot with a handle in hand, and close the handle that was there. -/
theorem settle_set {i : ℕ} {slot : Option ℕ} {o : FdOutcome ℕ}
    (h : Balanced k (k.nodeIn slot ++ hand)) (hslot : ∀ j ∈ slot, j < k.rest.nextFd)
    (hfew : hand.length ≤ 8) (hi : i < k.table.length) (htable : o.table = k.table.set i slot)
    (hclosed : o.closed = k.table[i]) : Balanced (k.settle (.ok o)).2 hand := by
  have hsized : Sized (k.setTable o.table) := h.toSized.setTable (.inl (by simp [htable]))
  have hset : Balanced (k.setTable o.table) (k.nodeIn o.closed ++ hand) := by
    refine setTable h hsized (fun n ↦ ?_) (fun j hj ↦ ?_) ?_
    · have hle := List.boole_getElem_le_countP (p := k.refers n) hi
      rw [List.count_append, List.count_append, k.count_nodeIn, k.count_nodeIn, htable, hclosed,
        List.countP_set hi]
      omega
    · rw [htable] at hj
      obtain hj | hj := List.mem_or_eq_of_mem_set hj
      · exact h.handle_lt _ h.current j hj
      · exact hslot j hj.symm
    · have hfits := hsized.fits
      have hone := length_nodeIn_le k o.closed
      simp only [FdTable.maxSlots] at hfits
      rw [List.length_append]
      omega
  show Balanced ((k.close o.closed).setTable o.table) hand
  rw [close_setTable]
  exact close hset

/-- Add a slot with a handle in hand. -/
theorem settle_append {slot : Option ℕ} {o : FdOutcome ℕ}
    (h : Balanced k (k.nodeIn slot ++ hand)) (hslot : ∀ j ∈ slot, j < k.rest.nextFd)
    (hfew : hand.length ≤ 8) (hroom : k.rest.room = true) (htable : o.table = k.table ++ [slot])
    (hclosed : o.closed = none) : Balanced (k.settle (.ok o)).2 hand := by
  have hsized : Sized (k.setTable o.table) := h.toSized.setTable (.inr ⟨by simp [htable], hroom⟩)
  have heq : (k.settle (.ok o)).2 = k.setTable o.table := by
    rw [KernelState.settle, hclosed]
    rfl
  rw [heq]
  refine setTable h hsized (fun n ↦ ?_) (fun j hj ↦ ?_) ?_
  · rw [List.count_append, k.count_nodeIn, htable, List.countP_append, List.countP_singleton]
    omega
  · rw [htable] at hj
    obtain hj | hj := List.mem_append.mp hj
    · exact h.handle_lt _ h.current j hj
    · exact hslot j (List.mem_singleton.mp hj).symm
  · have hfits := hsized.fits
    simp only [FdTable.maxSlots] at hfits
    omega

theorem halted_halt_ne_none (k : Kernel) (e : Halt) : (k.halt e).rest.halted ≠ none := by
  simp [KernelState.halt]

/-- **`allocate_file_desc`** takes a handle out of hand. -/
theorem allocateFileDesc {slot : Option ℕ} (h : Balanced k (k.nodeIn slot ++ hand))
    (hslot : ∀ j ∈ slot, j < k.rest.nextFd) (hfew : hand.length ≤ 8)
    (hrun : (k.allocateFileDesc slot).2.rest.halted = none) :
    Balanced (k.allocateFileDesc slot).2 hand := by
  rw [KernelState.allocateFileDesc] at hrun ⊢
  obtain ⟨i, hfree, -, heq⟩ | ⟨-, heq⟩ := FdTable.allocateFileDesc_eq k.table k.rest.room slot
  · rw [heq]
    refine settle_set h hslot hfew hfree.lt_length rfl ?_
    exact (Option.some.inj ((List.getElem?_eq_getElem hfree.lt_length).symm.trans hfree.2)).symm
  · rw [heq] at hrun ⊢
    split at hrun
    · next hroom =>
      rw [if_pos hroom]
      exact settle_append h hslot hfew hroom rfl rfl
    · exact absurd hrun (halted_halt_ne_none k _)

/-- **`replace_file_desc`**, on a descriptor no larger than the table. -/
theorem replaceFileDesc {fd : U32} {i : ℕ} (h : Balanced k (k.nodeIn (some i) ++ hand))
    (hslot : i < k.rest.nextFd) (hfew : hand.length ≤ 8)
    (hfd : 0 ≤ fd.toInt ∧ fd.toInt ≤ k.table.length)
    (hrun : (k.replaceFileDesc fd i).2.rest.halted = none) :
    Balanced (k.replaceFileDesc fd i).2 hand := by
  have hslot' : ∀ j ∈ some i, j < k.rest.nextFd := by simpa using hslot
  rw [KernelState.replaceFileDesc, FdTable.replaceFileDesc_eq h.table_le,
    if_neg (by omega)] at hrun ⊢
  split_ifs at hrun ⊢ with hend hroom
  · exact settle_append h hslot' hfew hroom rfl rfl
  · exact absurd hrun (halted_halt_ne_none k _)
  · have hlt : fd.toInt.toNat < k.table.length := by omega
    exact settle_set h hslot' hfew hlt rfl (FdTable.lookup_of_lt hfd.1 hlt)

/-- **`destroy_file_desc`** takes a handle into hand and closes it. -/
theorem destroyFileDesc {fd : U32} (h : Balanced k hand) (hfew : hand.length ≤ 8)
    (hrun : (k.destroyFileDesc fd).2.rest.halted = none) :
    Balanced (k.destroyFileDesc fd).2 hand := by
  rw [KernelState.destroyFileDesc, FdTable.destroyFileDesc_eq h.table_le] at hrun ⊢
  split at hrun
  · exact absurd hrun (halted_halt_ne_none k _)
  · next hfd =>
    rw [if_neg hfd]
    cases hlookup : FdTable.lookup k.table fd with
    | none =>
      have heq : (k.close none).setTable k.table = k := by
        simp [KernelState.close, KernelState.setTable, KernelState.table]
      show Balanced ((k.close none).setTable k.table) hand
      rw [heq]
      exact h
    | some f =>
      obtain ⟨hnonneg, hslot⟩ := FdTable.lookup_eq_some_iff.mp hlookup
      obtain ⟨hlt, hslot⟩ := List.getElem?_eq_some_iff.mp hslot
      have h' : Balanced k (k.nodeIn none ++ hand) := h
      exact settle_set h' (by simp) hfew hlt rfl hslot.symm

/-! ## Nodes that come and go -/

theorem due_eq_zero (h : Balanced k hand) (hn : k.rest.nextNode ≤ n) : k.due hand n = 0 :=
  not_not.mp fun hne ↦ absurd (h.made n hne) (not_lt.mpr hn)

theorem root_lt (h : Balanced k hand) : KernelState.root < k.rest.nextNode :=
  h.lt_nextNode h.root.alive

/-- New nodes have no handles.  The ends of pipes are another matter: they are not to be without. -/
theorem makeNodes {kinds : List NodeKind} (h : Balanced k hand)
    (hkinds : ∀ kind ∈ kinds, kind.isPipe = false) :
    Balanced { k with rest := k.rest.makeNodes kinds } hand := by
  refine h.rebuild _ _ _ (fun n node hn ↦ ?_) (fun n hn ↦ ?_) (fun n hn ↦ ?_) ?_ h.few
  · split at hn
    · exact h.settled n node hn
    · next hle =>
      obtain ⟨kind, hkind, rfl⟩ := Option.map_eq_some_iff.mp hn
      rw [h.due_eq_zero (not_lt.mp hle)]
      have hnot := hkinds kind (List.mem_of_getElem? hkind)
      exact ⟨fun _ _ ↦ rfl, fun hpipe ↦ absurd (hnot.symm.trans hpipe) Bool.false_ne_true⟩
  · exact (h.made n hn).trans_le (Nat.le_add_right _ _)
  · rw [if_neg (by omega), List.getElem?_eq_none (by omega), Option.map_none]
  · rw [DeviceAt, if_pos h.root_lt]
    exact h.root

/-- The cache deletes nodes of ext2, in use or not. -/
theorem evict (h : Balanced k hand) (evicted : List ℕ) :
    Balanced { k with rest := KernelState.evict k.rest evicted } hand := by
  refine h.rebuild _ _ _ (fun n node hn ↦ ?_) h.made (fun n hn ↦ ?_) ?_ h.few
  · obtain ⟨node', hnode', rfl⟩ := Option.map_eq_some_iff.mp hn
    split
    · next hev =>
      exact ⟨fun hdel ↦ by simp at hdel, fun hpipe ↦ by simp [hev.2, NodeKind.isPipe] at hpipe⟩
    · exact h.settled n node' hnode'
  · rw [h.fresh n hn, Option.map_none]
  · obtain ⟨node, hnode, hkind, hdel⟩ := h.root
    refine ⟨node, ?_, hkind, hdel⟩
    dsimp only
    rw [hnode, Option.map_some, if_neg (by simp [hkind])]

theorem lookedUp (h : Balanced k hand) (l : Lookup) : Balanced (k.lookedUp l) hand := by
  have hread : Balanced { k with rest := k.rest.makeNodes (List.replicate l.readIn .ext2) } hand :=
    h.makeNodes fun kind hkind ↦ by rw [List.eq_of_mem_replicate hkind]; rfl
  have hstat : Quiet { k with rest := k.rest.makeNodes (List.replicate l.readIn .ext2) }
      { k with nodes := l.nodes, rest := k.rest.makeNodes (List.replicate l.readIn .ext2) } :=
    ⟨rfl, fun _ ↦ rfl⟩
  exact (hread.quiet hstat).evict l.evicted

/-- One end of a pipe, opened once. -/
def openedEnd (other : ℕ) : CountedNode :=
  { CountedNode.new (.pipeEnd other) with handleCount := 1 }

theorem openedEnd_has (other : ℕ) : (openedEnd other).Has 1 :=
  ⟨fun _ _ ↦ rfl, fun _ ↦ by simp [openedEnd, CountedNode.new]⟩

/-- The nodes after `create_pipe`, with each end opened. -/
theorem counted_openPipe (d : Descriptors) (hfresh : ∀ m, d.nextNode ≤ m → d.counted m = none) :
    addHandleTo (addHandleTo
        (d.makeNodes [.pipeEnd (d.nextNode + 1), .pipeEnd d.nextNode]).counted d.nextNode)
        (d.nextNode + 1) =
      Function.update (Function.update d.counted d.nextNode (some (openedEnd (d.nextNode + 1))))
        (d.nextNode + 1) (some (openedEnd d.nextNode)) := by
  funext m
  simp only [addHandleTo, Descriptors.makeNodes, Function.update_apply]
  obtain hlt | rfl | rfl | hgt : m < d.nextNode ∨ m = d.nextNode ∨ m = d.nextNode + 1 ∨
      d.nextNode + 1 < m := by omega
  · simp [hlt, show m ≠ d.nextNode + 1 by omega, show m ≠ d.nextNode by omega]
  · simp [openedEnd, CountedNode.new]
  · simp [openedEnd, CountedNode.new]
  · rw [if_neg (by omega), if_neg (by omega), if_neg (by omega), if_neg (by omega),
      if_neg (by omega), hfresh m (by omega), List.getElem?_eq_none (by simp; omega)]
    rfl

/-- `create_pipe`, and one handle for each end. -/
theorem makePipe (h : Balanced k hand) (hfew : hand.length ≤ 6) {n : ℕ} (hn : n = k.rest.nextNode) :
    Balanced { k with
      rest := { k.rest with
        counted := addHandleTo (addHandleTo
          (k.rest.makeNodes [.pipeEnd (n + 1), .pipeEnd n]).counted n) (n + 1)
        nextNode := n + 2 } } ((n + 1) :: n :: hand) := by
  have hroot := h.root_lt
  have hfits := h.fits
  have hcounted := counted_openPipe k.rest h.fresh
  rw [← hn] at hroot hcounted
  simp only [FdTable.maxSlots] at hfits
  rw [hcounted]
  refine h.rebuild _ _ _ ?_ (fun m hm ↦ ?_) (fun m hm ↦ ?_) ?_ ?_
  · rw [due_cons, due_cons, Function.update_of_ne (by omega), h.due_eq_zero hn.ge,
      h.due_eq_zero (by omega)]
    refine (h.settled.update ?_).update ?_
    · simpa using openedEnd_has (n + 1)
    · simpa using openedEnd_has n
  · by_contra hle
    rw [due_cons, due_cons, Function.update_of_ne (by omega),
      Function.update_of_ne (by omega)] at hm
    exact hm (h.due_eq_zero (by omega))
  · rw [Function.update_of_ne (by omega), Function.update_of_ne (by omega), h.fresh m (by omega)]
  · rw [DeviceAt, Function.update_of_ne (by omega), Function.update_of_ne (by omega)]
    exact h.root
  · simp only [List.length_cons]
    omega

/-- **A new pipe**, with both ends opened. -/
theorem openPipe (h : Balanced k hand) (hfew : hand.length ≤ 6) {n : ℕ} (hn : n = k.rest.nextNode) :
    Balanced ((k.createPipe.2.openNode n 0).2.openNode (n + 1) 0).2 ((n + 1) :: n :: hand) := by
  subst hn
  exact makePipe ((h.newFd _).newFd _) hfew rfl

/-! ## Processes that come and go -/

theorem count_flatMap_nodeIn (k : Kernel) (t : FdTable ℕ) (n : ℕ) :
    (t.flatMap k.nodeIn).count n = t.countP (k.refers n) := by
  induction t with
  | nil => rfl
  | cons slot t ih =>
    rw [List.flatMap_cons, List.count_append, ih, k.count_nodeIn, List.countP_cons, Nat.add_comm]

theorem length_flatMap_nodeIn_le (k : Kernel) (t : FdTable ℕ) :
    (t.flatMap k.nodeIn).length ≤ t.length := by
  induction t with
  | nil => exact le_rfl
  | cons slot t ih =>
    have := length_nodeIn_le k slot
    rw [List.flatMap_cons, List.length_append, List.length_cons]
    omega

theorem closeAll (l : List (Option ℕ)) (h : Balanced k (l.flatMap k.nodeIn ++ hand)) :
    Balanced (l.foldl KernelState.close k) hand := by
  induction l generalizing k with
  | nil => exact h
  | cons slot l ih =>
    rw [List.flatMap_cons, List.append_assoc] at h
    have hsame : (k.close slot).nodeIn = k.nodeIn := by cases slot <;> rfl
    refine ih ?_
    rw [hsame]
    exact close h

theorem closeAll_setTable (l : List (Option ℕ)) (k : Kernel) (t : FdTable ℕ) :
    (l.foldl KernelState.close k).setTable t = l.foldl KernelState.close (k.setTable t) := by
  induction l generalizing k with
  | nil => rfl
  | cons slot l ih =>
    rw [List.foldl_cons, List.foldl_cons, ih, close_setTable]

/-- A process with an empty table may leave. -/
theorem leave (h : Balanced k hand) (ht : k.table = []) :
    Ledger { k with rest := { k.rest with live := k.rest.live.erase k.rest.current } } hand := by
  have hsum : ∀ f : FdTable ℕ → ℕ, f [] = 0 →
      ∑ p ∈ k.rest.live.erase k.rest.current, f (k.rest.tables p) =
        ∑ p ∈ k.rest.live, f (k.rest.tables p) := fun f hf ↦
    Finset.sum_erase _ ((congrArg f ht).trans hf)
  have hslots := hsum List.length rfl
  have hdue : ∀ n, KernelState.due { k with
      rest := { k.rest with live := k.rest.live.erase k.rest.current } } hand n = k.due hand n :=
    fun n ↦ congrArg (· + hand.count n) (hsum (fun t ↦ t.countP (k.refers n)) rfl)
  exact {
    fits := hslots.trans_le h.fits
    settled := fun n node hn ↦ (hdue n).symm ▸ h.settled n node hn
    made := fun n hn ↦ h.made n (hdue n ▸ hn)
    fresh := h.fresh
    handle_lt := fun p hp ↦ h.handle_lt p (Finset.mem_of_mem_erase hp)
    root := h.root
    few := (congrArg (· + hand.length) hslots).trans_lt h.few }

/-- **A process ends** with nothing in hand. -/
theorem endProcess (h : Balanced k []) : Ledger k.endProcess [] := by
  have hempty : Balanced (k.setTable []) (k.table.flatMap k.nodeIn ++ []) := by
    have hsized : Sized (k.setTable []) := h.toSized.setTable (.inl (Nat.zero_le _))
    refine setTable h hsized (fun n ↦ ?_) (fun i hi ↦ ?_) ?_
    · rw [List.append_nil, count_flatMap_nodeIn, List.countP_nil, List.count_nil, Nat.zero_add,
        Nat.add_zero]
    · cases hi
    · have hslots := slots_setTable h.toSized []
      have hle := length_flatMap_nodeIn_le k k.table
      have hfew := h.few
      rw [List.length_nil] at hslots hfew
      rw [List.append_nil]
      omega
  have hclosed := closeAll k.table hempty
  rw [← closeAll_setTable] at hclosed
  exact hclosed.leave (Function.update_self ..)

end Balanced

namespace Ledger

variable {k : Kernel} {p : ℕ}

theorem switchTo (h : Ledger k []) (hp : p ∈ k.rest.live) : Balanced (k.switchTo p) [] :=
  { h with current := hp }

theorem boot (h : k.Booted) : Ledger k [] := by
  have hdue : ∀ n, k.due [] n = 0 := fun n ↦ by
    rw [KernelState.due, KernelState.references, h.live, Finset.sum_empty, List.count_nil]
  have hslots : k.rest.slots = 0 := by rw [Descriptors.slots, h.live, Finset.sum_empty]
  exact {
    fits := by rw [hslots]; exact Nat.zero_le _
    settled := fun n node hn ↦ by
      obtain ⟨-, -, hcount, hpipe⟩ := h.counted n node hn
      refine ⟨fun _ _ ↦ ?_, fun hp ↦ absurd (hpipe.symm.trans hp) Bool.false_ne_true⟩
      rw [hcount, hdue]
      rfl
    made := fun n hn ↦ absurd (hdue n) hn
    fresh := fun n hn ↦ by
      by_contra hne
      obtain ⟨node, hnode⟩ := Option.ne_none_iff_exists'.mp hne
      exact absurd (h.counted n node hnode).1 (not_lt.mpr hn)
    handle_lt := fun p hp ↦ by simp [h.live] at hp
    root := ⟨_, h.root, rfl, rfl⟩
    few := by rw [hslots]; decide }

/-- A new process has nothing. -/
theorem enroll (h : Ledger k []) (hp : p ∉ k.rest.live) : Balanced (k.enroll p) [] := by
  have hsum : ∀ f : FdTable ℕ → ℕ, f [] = 0 →
      ∑ i ∈ insert p k.rest.live, f (Function.update k.rest.tables p [] i) =
        ∑ i ∈ k.rest.live, f (k.rest.tables i) := fun f hf ↦ by
    rw [Finset.sum_insert hp, Function.update_self, hf, Nat.zero_add]
    refine Finset.sum_congr rfl fun i hi ↦ ?_
    rw [Function.update_of_ne (ne_of_mem_of_not_mem hi hp)]
  have hslots := hsum List.length rfl
  have hdue : ∀ n, (k.enroll p).due [] n = k.due [] n :=
    fun n ↦ hsum (fun t ↦ t.countP (k.refers n)) rfl
  exact {
    current := Finset.mem_insert_self ..
    fits := hslots.trans_le h.fits
    settled := fun n node hn ↦ (hdue n).symm ▸ h.settled n node hn
    made := fun n hn ↦ h.made n (hdue n ▸ hn)
    fresh := h.fresh
    handle_lt := fun i hi j hj ↦ by
      obtain rfl | hi := Finset.mem_insert.mp hi
      · simp [KernelState.enroll] at hj
      · have hne : i ≠ p := ne_of_mem_of_not_mem hi hp
        refine h.handle_lt i hi j ?_
        simpa [KernelState.enroll, Function.update_of_ne hne] using hj
    root := h.root
    few := hslots.trans_lt h.few }

end Ledger

/-! ## The system calls -/

section

variable {k k' : Kernel} {n : ℕ}

/-- What carrying out an operation on the table leaves alone. -/
theorem settle_frame (k : Kernel) (r : Except Halt (FdOutcome ℕ)) :
    (k.settle r).2.handles = k.handles ∧ (k.settle r).2.rest.nextFd = k.rest.nextFd ∧
      KeepsDevices k.rest.counted (k.settle r).2.rest.counted := by
  cases r with
  | error e => exact ⟨rfl, rfl, .refl _⟩
  | ok o =>
    obtain ⟨ret, table, _ | i⟩ := o
    · exact ⟨rfl, rfl, .refl _⟩
    · exact ⟨rfl, rfl, .closeNode _ _⟩

theorem table_settle (k : Kernel) (o : FdOutcome ℕ) : (k.settle (.ok o)).2.table = o.table := by
  obtain ⟨ret, table, _ | i⟩ := o <;> exact Function.update_self ..

theorem halted_of_settle {r : Except Halt (FdOutcome ℕ)}
    (h : (k.settle r).2.rest.halted = none) : k.rest.halted = none ∧ ∃ o, r = .ok o := by
  cases r with
  | error e => exact absurd h (Balanced.halted_halt_ne_none k e)
  | ok o => exact ⟨(sameTables_close k o.closed).halted.symm.trans h, o, rfl⟩

theorem nodeIn_openNode {flags : U32} (hq : Quiet (k.openNode n flags).2 k') :
    k'.nodeIn (some (k.openNode n flags).1) = [n] := by
  rw [KernelState.nodeIn, Option.toList_some, List.map_singleton, hq.node]
  simp [KernelState.openNode, KernelState.newFd, KernelState.addHandle]

namespace Balanced

theorem opens (h : Balanced k []) (halive : k.rest.Alive n) (ho : Opens k n k')
    (hrun : k'.rest.halted = none) : Balanced k' [] := by
  obtain ⟨hq⟩ := ho
  refine allocateFileDesc ?_ (fun j hj ↦ ?_) (Nat.zero_le _) hrun
  · rw [nodeIn_openNode hq]
    exact (h.openNode halive _ (Nat.zero_le _)).quiet hq
  · cases hj
    rw [hq.rest]
    exact Nat.lt_succ_self _

theorem opensPipe (h : Balanced k []) (hn : n = k.rest.nextNode)
    (ho : OpensPipe k.createPipe.2 n k') (hrun : k'.rest.halted = none) : Balanced k' [] := by
  obtain @⟨_, k₂, rfl, hq⟩ := ho
  have hread : k₂.nodeIn (some (k.createPipe.2.openNode n 0).1) = [n] := by
    rw [KernelState.nodeIn, Option.toList_some, List.map_singleton, hq.node]
    simp [KernelState.openNode, KernelState.newFd, KernelState.addHandle, KernelState.createPipe]
  have hwrite := nodeIn_openNode hq
  have hread_lt : (k.createPipe.2.openNode n 0).1 < k₂.rest.nextFd := by
    rw [hq.rest]
    exact Nat.lt_add_right 1 (Nat.lt_succ_self _)
  have hwrite_lt : ((k.createPipe.2.openNode n 0).2.openNode (n + 1) 0).1 < k₂.rest.nextFd := by
    rw [hq.rest]
    exact Nat.lt_succ_self _
  have hopened := ((h.openPipe (Nat.zero_le _) hn).quiet hq).perm (List.Perm.swap ..)
  generalize (k.createPipe.2.openNode n 0).1 = read at *
  generalize ((k.createPipe.2.openNode n 0).2.openNode (n + 1) 0).1 = write at *
  have hfirst : Balanced (k₂.allocateFileDesc (some read)).2 [n + 1] := by
    refine allocateFileDesc ?_ (by simpa using hread_lt) (by simp) (halted_of_settle hrun).1
    rw [hread]
    exact hopened
  obtain ⟨hhandles, hnext, -⟩ :=
    settle_frame k₂ (FdTable.allocateFileDesc k₂.rest.room k₂.table (some read))
  refine allocateFileDesc ?_ ?_ (Nat.zero_le _) hrun
  · have hsame : (k₂.allocateFileDesc (some read)).2.nodeIn (some write) = [n + 1] :=
      (congrFun (KernelState.nodeIn_congr hhandles) _).trans hwrite
    rw [hsame]
    exact hfirst
  · intro j hj
    cases hj
    exact hwrite_lt.trans_eq hnext.symm

theorem attach (h : Balanced k []) (halive : k.rest.Alive n) {fd : U32}
    (hfd : 0 ≤ fd.toInt ∧ fd.toInt ≤ k.table.length)
    (hrun : (k.attach n fd).rest.halted = none) : Balanced (k.attach n fd) [] := by
  have hopened : Balanced (k.openNode n 0).2
      ((k.openNode n 0).2.nodeIn (some (k.openNode n 0).1) ++ []) := by
    rw [nodeIn_openNode (.refl _)]
    exact h.openNode halive 0 (Nat.zero_le _)
  exact replaceFileDesc hopened (Nat.lt_succ_self _) (Nat.zero_le _) hfd hrun

theorem halted_of_opens (ho : Opens k n k') (hrun : k'.rest.halted = none) :
    k.rest.halted = none := by
  obtain ⟨hq⟩ := ho
  exact (congrArg Descriptors.halted hq.rest).symm.trans (halted_of_settle hrun).1

/-- Putting a handle into a slot makes the table long enough for it. -/
theorem lt_length_attach (h : Balanced k []) {fd : U32}
    (hfd : 0 ≤ fd.toInt ∧ fd.toInt ≤ k.table.length)
    (hrun : (k.attach n fd).rest.halted = none) : fd.toInt < (k.attach n fd).table.length := by
  obtain ⟨k₁, hk₁⟩ : ∃ k₁, k₁ = (k.openNode n 0).2 := ⟨_, rfl⟩
  have htable : k₁.table = k.table := by rw [hk₁]; rfl
  rw [← htable] at hfd
  rw [KernelState.attach, ← hk₁, KernelState.replaceFileDesc,
    FdTable.replaceFileDesc_eq (htable ▸ h.table_le), if_neg (by omega)] at hrun ⊢
  split_ifs at hrun ⊢ with hend
  · rw [table_settle, List.length_append, List.length_singleton]
    omega
  · exact absurd hrun (halted_halt_ne_none _ _)
  · rw [table_settle, List.length_set]
    omega

theorem grantPty (h : Balanced k []) : Balanced k.grantPty.2 [] :=
  h.makeNodes (by simp [NodeKind.isPipe])

theorem deviceAt_attach {fd : U32} {m : ℕ} (h : DeviceAt k.rest.counted m) :
    DeviceAt (k.attach n fd).rest.counted m := by
  have hopen : KeepsDevices k.rest.counted (k.openNode n 0).2.rest.counted :=
    .modify fun _ ↦ ⟨rfl, rfl⟩
  exact (hopen.trans (settle_frame _ _).2.2).device m h

variable (abi : SysAbi) (env : Env) (regs : RegisterContext)

/-- **`sys_grant_pty`** takes its handles out of hand: the worker end goes into the first three
slots, each of which is there or is the next. -/
theorem sysGrantPty (h : Balanced k [])
    (hrun : ((Handlers.sysGrantPty env.services regs).final k).rest.halted = none) :
    Balanced ((Handlers.sysGrantPty env.services regs).final k) [] := by
  obtain heq | hopens := final_sysGrantPty env regs k
  · rw [heq]
    exact h
  · have h₀ := h.grantPty
    have hworker : DeviceAt k.grantPty.2.rest.counted k.rest.nextNode :=
      ⟨.new .device, by simp [KernelState.grantPty, Descriptors.makeNodes], rfl, rfl⟩
    have hcontroller : DeviceAt k.grantPty.2.rest.counted (k.rest.nextNode + 1) :=
      ⟨.new .device, by simp [KernelState.grantPty, Descriptors.makeNodes], rfl, rfl⟩
    generalize k.grantPty.2 = k₀ at *
    have hrun₃ := halted_of_opens hopens hrun
    have hrun₂ := (halted_of_settle hrun₃).1
    have hrun₁ := (halted_of_settle hrun₂).1
    have hfd₀ : 0 ≤ (0 : U32).toInt ∧ (0 : U32).toInt ≤ k₀.table.length :=
      ⟨le_rfl, Int.natCast_nonneg _⟩
    have h₁ := h₀.attach hworker.alive hfd₀ hrun₁
    have hfd₁ : 0 ≤ (1 : U32).toInt ∧
        (1 : U32).toInt ≤ (k₀.attach k.rest.nextNode 0).table.length :=
      ⟨by decide, h₀.lt_length_attach hfd₀ hrun₁⟩
    have h₂ := h₁.attach (deviceAt_attach hworker).alive hfd₁ hrun₂
    have hfd₂ : 0 ≤ (2 : U32).toInt ∧
        (2 : U32).toInt ≤ ((k₀.attach k.rest.nextNode 0).attach k.rest.nextNode 1).table.length :=
      ⟨by decide, h₁.lt_length_attach hfd₁ hrun₂⟩
    have h₃ := h₂.attach (deviceAt_attach (deviceAt_attach hworker)).alive hfd₂ hrun₃
    refine h₃.opens (DeviceAt.alive ?_) hopens hrun
    exact deviceAt_attach (deviceAt_attach (deviceAt_attach hcontroller))

theorem due_ne_zero_of_mem (hc : k.rest.current ∈ k.rest.live) (hand : List ℕ) {i : ℕ}
    (hi : some i ∈ k.table) : k.due hand (k.handles i).node ≠ 0 := by
  have hpos : 0 < k.table.countP (k.refers (k.handles i).node) :=
    List.countP_pos_iff.mpr ⟨some i, hi, by simp [KernelState.refers]⟩
  have hle : k.table.countP (k.refers (k.handles i).node) ≤ k.references (k.handles i).node :=
    Finset.single_le_sum (f := fun p ↦ (k.rest.tables p).countP (k.refers (k.handles i).node))
      (fun _ _ ↦ Nat.zero_le _) hc
  rw [KernelState.due]
  omega

/-- The first half of `sys_dup` takes the copy in hand. -/
theorem duplicate (h : Balanced k []) {i : ℕ} (hi : some i ∈ k.table) {fd : FsFd}
    (hfd : fd.node = (k.handles i).node) : Balanced (k.duplicate fd).2 [fd.node] := by
  refine (h.newFd fd).addHandle (.inr ?_) (Nat.zero_le _)
  have hne : i ≠ k.rest.nextFd := (h.handle_lt _ h.current i hi).ne
  have hnode : ((k.newFd fd).2.handles i).node = fd.node := by
    rw [hfd]
    exact congrArg FsFd.node (Function.update_of_ne hne ..)
  rw [← hnode]
  exact due_ne_zero_of_mem (k := (k.newFd fd).2) h.current [] hi

theorem nodeIn_duplicate (k : Kernel) (fd : FsFd) :
    (k.duplicate fd).2.nodeIn (some (k.duplicate fd).1) = [fd.node] := by
  simp [KernelState.nodeIn, KernelState.duplicate, KernelState.newFd, KernelState.addHandle]

theorem length_destroyFileDesc {hand : List ℕ} (h : Balanced k hand) {fd : U32}
    (hrun : (k.destroyFileDesc fd).2.rest.halted = none) :
    (k.destroyFileDesc fd).2.table.length = k.table.length := by
  rw [KernelState.destroyFileDesc, FdTable.destroyFileDesc_eq h.table_le] at hrun ⊢
  split at hrun
  · exact absurd hrun (halted_halt_ne_none k _)
  · next hfd =>
    rw [if_neg hfd]
    cases FdTable.lookup k.table fd with
    | none => rw [table_settle]
    | some f => rw [table_settle, List.length_set]

end Balanced

end

/-! ## The leak -/

/-- **The copy that gets lost**: `sys_dup` of an open file whose node keeps count, to a descriptor
beyond the table. -/
def KernelState.Leaks (k : Kernel) : KernelMove → Prop
  | .call p _ .dup regs =>
    intArg (scArg0 regs) ≠ intArg (scArg2 regs) ∧
      0 ≤ (intArg (scArg2 regs)).toInt ∧ (k.rest.tables p).length ≤ (intArg (scArg2 regs)).toInt ∧
      ∃ h node, FdTable.lookup (k.rest.tables p) (intArg (scArg0 regs)) = some h ∧
        k.rest.counted (k.handles h).node = some node ∧ node.deleted = false ∧ node.kind ≠ .tar
  | _ => False

section

variable {k : Kernel} {p : ℕ} (abi : SysAbi) (env : Env) (regs : RegisterContext)

theorem getFileDesc_services (hk : Sized k) (fd : U32) :
    env.services.getFileDesc fd k = FdTable.lookup k.table fd := by
  show (FdTable.getFileDesc k.table fd).toOption.join = _
  rw [FdTable.getFileDesc_eq hk.table_le]
  rfl

theorem counted_duplicate (k : Kernel) (fd : FsFd) :
    (k.duplicate fd).2.rest.counted fd.node = (k.rest.counted fd.node).map fun node ↦
      { node with handleCount := node.handleCount + 1 } :=
  Function.update_self ..

/-- The test of `sys_dup`, in numbers. -/
theorem fileDescCount_le_iff (hk : Sized k) {fd : U32} (hfd : 0 ≤ fd.toInt) :
    env.services.fileDescCount k ≤ fd ↔ (k.table.length : ℤ) ≤ fd.toInt := by
  have hcount : (env.services.fileDescCount k).toNat = k.table.length :=
    FdTable.toNat_fileDescCount hk.table_le
  rw [BitVec.le_def, hcount, FdTable.toNat_of_nonneg hfd]
  omega

/-- `sys_dup` gets as far as the copy, and drops it or not. -/
theorem Balanced.sysDup (h : Balanced (k.switchTo p) [])
    (hleak : ¬ k.Leaks (.call p env .dup regs))
    (hrun : (Handlers.sysDup abi env.services regs (k.switchTo p)).2.rest.halted = none) :
    Balanced (Handlers.sysDup abi env.services regs (k.switchTo p)).2 [] := by
  obtain ⟨-, heq⟩ | ⟨hne, i, fd, hget, hnode, hcase⟩ := final_sysDup abi env regs (k.switchTo p)
  · rw [heq]
    exact h
  · rw [getFileDesc_services env h.toSized] at hget
    have hmem : some i ∈ (k.switchTo p).table :=
      List.mem_of_getElem? (FdTable.lookup_eq_some_iff.mp hget).2
    have hdup := h.duplicate hmem hnode
    split_ifs at hcase with hreq hcount
    · rw [hcase]
      refine hdup.forget fun node hcounted ↦ ?_
      rw [counted_duplicate] at hcounted
      obtain ⟨node', hcounted', rfl⟩ := Option.map_eq_some_iff.mp hcounted
      by_contra hkept
      rw [not_or] at hkept
      exact hleak ⟨hne, hreq, (fileDescCount_le_iff env h.toSized hreq).mp hcount, i, node', hget,
        hnode ▸ hcounted', by simpa using hkept.1, hkept.2⟩
    · rw [hcase] at hrun ⊢
      rw [fileDescCount_le_iff env h.toSized hreq, not_le] at hcount
      have hrun' := (halted_of_settle hrun).1
      have hdestroyed := hdup.destroyFileDesc (by simp) hrun'
      obtain ⟨hhandles, hnext, -⟩ := settle_frame ((k.switchTo p).duplicate fd).2
        (FdTable.destroyFileDesc ((k.switchTo p).duplicate fd).2.table (intArg (scArg2 regs)))
      have hlen : _ = (k.switchTo p).table.length := hdup.length_destroyFileDesc hrun'
      refine Balanced.replaceFileDesc ?_ (lt_of_lt_of_eq (Nat.lt_succ_self _) hnext.symm)
        (Nat.zero_le _) ⟨hreq, by rw [hlen]; exact hcount.le⟩ hrun
      have hin : KernelState.nodeIn _ _ = [fd.node] :=
        (congrFun (KernelState.nodeIn_congr hhandles) _).trans
          (Balanced.nodeIn_duplicate (k.switchTo p) fd)
      exact hin.symm ▸ hdestroyed
    · rw [hcase] at hrun ⊢
      refine Balanced.allocateFileDesc ?_ ?_ (Nat.zero_le _) hrun
      · rw [Balanced.nodeIn_duplicate]
        exact hdup
      · intro j hj
        cases hj
        exact Nat.lt_succ_self _

theorem Balanced.sysOpen (h : Balanced k [])
    (hrun : (Handlers.sysOpen abi env.services regs k).2.rest.halted = none) :
    Balanced (Handlers.sysOpen abi env.services regs k).2 [] := by
  obtain hroot | ⟨l, hfail | ⟨n, halive, hopens⟩⟩ := final_sysOpen abi env regs k
  · exact h.opens h.root.alive hroot hrun
  · rw [hfail]
    exact h.lookedUp l
  · exact (h.lookedUp l).opens halive hopens hrun

/-- **A system call** ends with nothing in hand, unless it loses a copy. -/
theorem handler_ledger (h : Balanced (k.switchTo p) []) {call : Syscall}
    (hleak : ¬ k.Leaks (.call p env call regs))
    (hrun : ((call.handler abi env.services regs).final (k.switchTo p)).rest.halted = none) :
    Ledger ((call.handler abi env.services regs).final (k.switchTo p)) [] := by
  by_cases hquiet : call.touchesNodes = false
  · exact (h.quiet (quiet_handler abi env regs _ hquiet)).toLedger
  · cases call with
    | openFile => exact (h.sysOpen abi env regs hrun).toLedger
    | close => exact (h.destroyFileDesc (Nat.zero_le _) hrun).toLedger
    | exit => exact h.endProcess
    | grantPty => exact (h.sysGrantPty env regs hrun).toLedger
    | dup => exact (h.sysDup abi env regs hleak hrun).toLedger
    | pipe =>
      obtain heq | hopens := final_sysPipe abi env regs (k.switchTo p)
      · exact (congrArg (Ledger · []) heq).mpr h.toLedger
      · exact (h.opensPipe rfl hopens hrun).toLedger
    | stat =>
      obtain heq | ⟨l, heq⟩ := final_sysStat abi env regs (k.switchTo p)
      · exact (congrArg (Ledger · []) heq).mpr h.toLedger
      · exact (congrArg (Ledger · []) heq).mpr (h.lookedUp l).toLedger
    | _ => exact absurd rfl hquiet

/-! ## Runs -/

theorem counted_allocateFileDesc (k : Kernel) (slot : Option ℕ) :
    (k.allocateFileDesc slot).2.rest.counted = k.rest.counted := by
  rw [KernelState.allocateFileDesc]
  obtain ⟨i, -, -, heq⟩ | ⟨-, heq⟩ := FdTable.allocateFileDesc_eq k.table k.rest.room slot
  · rw [heq]
    rfl
  · rw [heq]
    split <;> rfl

theorem alive_addHandle {n m : ℕ} (h : k.rest.Alive m) : (k.addHandle n).rest.Alive m := by
  obtain ⟨node, hnode, hdel⟩ := h
  by_cases hmn : m = n
  · subst hmn
    refine ⟨{ node with handleCount := node.handleCount + 1 }, ?_, hdel⟩
    simp [KernelState.addHandle, addHandleTo, hnode]
  · exact ⟨node, (Function.update_of_ne hmn ..).trans hnode, hdel⟩

theorem alive_openStandard {m : ℕ} (h : k.rest.Alive m) (dev : Option ℕ) :
    (k.openStandard dev).rest.Alive m := by
  cases dev with
  | none =>
    rw [Descriptors.Alive, KernelState.openStandard, counted_allocateFileDesc]
    exact h
  | some n =>
    rw [Descriptors.Alive, KernelState.openStandard, counted_allocateFileDesc]
    exact alive_addHandle (k := (k.newFd { node := n, pos := 0, mode := 0 }).2) h

theorem Balanced.openStandard (h : Balanced k []) {dev : Option ℕ}
    (hdev : ∀ n ∈ dev, k.rest.Alive n) (hrun : (k.openStandard dev).rest.halted = none) :
    Balanced (k.openStandard dev) [] := by
  cases dev with
  | none =>
    have h' : Balanced k (k.nodeIn none ++ []) := h
    exact h'.allocateFileDesc (by simp) (Nat.zero_le _) hrun
  | some n => exact h.opens (hdev n rfl) (.intro (.refl _)) hrun

theorem halted_of_openStandard {dev : Option ℕ} (h : (k.openStandard dev).rest.halted = none) :
    k.rest.halted = none := by
  cases dev with
  | none => exact (halted_of_settle h).1
  | some n => exact (halted_of_settle h).1

theorem Ledger.spawn (h : Ledger k []) (hp : p ∉ k.rest.live) {nullDev logDev : Option ℕ}
    (hnull : ∀ n ∈ nullDev, k.rest.Alive n) (hlog : ∀ n ∈ logDev, k.rest.Alive n)
    (hrun : (k.spawn p nullDev logDev).rest.halted = none) :
    Ledger (k.spawn p nullDev logDev) [] := by
  have hrun₂ := halted_of_openStandard hrun
  have h₁ := (h.enroll hp).openStandard hnull (halted_of_openStandard hrun₂)
  have hlog₁ : ∀ n ∈ logDev, ((k.enroll p).openStandard nullDev).rest.Alive n :=
    fun n hn ↦ alive_openStandard (k := k.enroll p) (hlog n hn) nullDev
  have h₂ := h₁.openStandard hlog₁ hrun₂
  exact (h₂.openStandard (fun n hn ↦ alive_openStandard (hlog₁ n hn) logDev) hrun).toLedger

/-- Between two steps of a run that loses no copy, nothing is in hand. -/
theorem KernelState.Reaches.ledger (h : KernelState.Reaches abi (fun k mv ↦ ¬ k.Leaks mv) k)
    (hrun : k.rest.halted = none) : Ledger k [] := by
  induction h with
  | boot h => exact .boot h
  | @step k k' mv _ hleak hs ih =>
    cases mv with
    | call p env call regs =>
      obtain ⟨⟨hhalted, hp⟩, ⟨⟩⟩ := Option.ite_none_right_eq_some.mp hs
      exact handler_ledger abi env regs ((ih hhalted).switchTo hp) hleak hrun
    | spawn p nullDev logDev =>
      obtain ⟨⟨hhalted, hp, hnull, hlog⟩, ⟨⟩⟩ := Option.ite_none_right_eq_some.mp hs
      exact (ih hhalted).spawn hp hnull hlog hrun
    | kill p =>
      obtain ⟨⟨hhalted, hp⟩, ⟨⟩⟩ := Option.ite_none_right_eq_some.mp hs
      exact ((ih hhalted).switchTo hp).endProcess

/-- **What the counts are for.**  The count of a node that keeps one is the number of slots that
refer to it, and the end of a pipe is deleted exactly when there are none. -/
def KernelState.Accounted (k : Kernel) : Prop :=
  ∀ n node, k.rest.counted n = some node → node.kind ≠ .tar →
    (node.deleted = false → node.handleCount.toNat = k.references n) ∧
      (node.kind.isPipe = true → (node.deleted = true ↔ k.references n = 0))

theorem Ledger.accounted (h : Ledger k []) : k.Accounted := by
  intro n node hnode hkind
  have hhas := h.settled n node hnode
  exact ⟨fun hdel ↦ hhas.count hdel hkind, hhas.pipe⟩

/-- A copy that nobody takes. -/
theorem Ledger.not_accounted_duplicate (h : Ledger k []) {fd : FsFd} {node : CountedNode}
    (hnode : k.rest.counted fd.node = some node) (hdel : node.deleted = false)
    (hkind : node.kind ≠ .tar) : ¬ (k.duplicate fd).2.Accounted := by
  intro hacc
  have hnode' : (k.duplicate fd).2.rest.counted fd.node =
      some { node with handleCount := node.handleCount + 1 } := by
    rw [counted_duplicate, hnode, Option.map_some]
  have hafter := (hacc fd.node _ hnode' hkind).1 hdel
  have hbefore : node.handleCount.toNat = k.references fd.node :=
    (h.settled fd.node node hnode).count hdel hkind
  have hsame : (k.duplicate fd).2.references fd.node = k.references fd.node :=
    Balanced.references_newFd h.handle_lt fd _
  have hle := (k.references_le_slots fd.node).trans h.fits
  simp only [FdTable.maxSlots] at hle
  rw [hsame, BitVec.toNat_add, hbefore, Nat.mod_eq_of_lt (by simp; omega)] at hafter
  simp at hafter

theorem not_accounted_of_leaks {mv : KernelMove} {k' : Kernel}
    (h : KernelState.Reaches abi (fun k mv ↦ ¬ k.Leaks mv) k)
    (hs : KernelState.step abi k mv = some k') (hleak : k.Leaks mv) : ¬ k'.Accounted := by
  cases mv with
  | spawn | kill => exact absurd hleak id
  | call p env call regs =>
    cases call with
    | dup =>
      obtain ⟨⟨hhalted, hp⟩, ⟨⟩⟩ := Option.ite_none_right_eq_some.mp hs
      obtain ⟨hne, hreq, hlen, i, node, hlookup, hnode, hdel, hkind⟩ := hleak
      have hledger := h.ledger abi hhalted
      have hk := (hledger.switchTo hp).toSized
      have hget := getFileDesc_services env hk (intArg (scArg0 regs))
      obtain ⟨heq | hnone, -⟩ | ⟨-, i', fd, hi', hfd, hcase⟩ :=
        final_sysDup abi env regs (k.switchTo p)
      · exact absurd heq hne
      · cases hlookup.symm.trans (hget.symm.trans hnone)
      · obtain rfl : i' = i :=
          Option.some.inj ((hi'.symm.trans hget).trans hlookup)
        rw [if_pos hreq, if_pos ((fileDescCount_le_iff env hk hreq).mpr hlen)] at hcase
        show ¬ (Handlers.sysDup abi env.services regs (k.switchTo p)).2.Accounted
        rw [hcase]
        exact (hledger.switchTo hp).toLedger.not_accounted_duplicate (hfd ▸ hnode) hdel hkind
    | _ => exact absurd hleak id

/-- **Handle accounting** holds in every state of every run that loses no copy, and the first copy
that is lost breaks it. -/
theorem accounted_iff_no_leak :
    (∀ k, KernelState.Reaches abi (fun k mv ↦ ¬ k.Leaks mv) k → k.rest.halted = none →
        k.Accounted) ∧
      ∀ k k' mv, KernelState.Reaches abi (fun k mv ↦ ¬ k.Leaks mv) k →
        KernelState.step abi k mv = some k' → k.Leaks mv → ¬ k'.Accounted :=
  ⟨fun _ h hrun ↦ (h.ledger abi hrun).accounted,
    fun _ _ _ h hs hleak ↦ not_accounted_of_leaks abi h hs hleak⟩

end

/-- Nothing is found, read or written. -/
def bareEnv : Env where
  checkUsermodePointer _ _ _ := true
  userString _ _ := []
  resolvePath _ _ k := { found := none, readIn := 0, evicted := [], nodes := k.nodes }
  nodeRead _ _ _ _ := 0
  nodeWrite _ _ _ _ := 0
  nodeIoctl _ _ _ _ := 0
  allocateAnonymousVmo _ _ _ _ := none
  mapFramebuffer _ := none
  videoMode _ := { width := 0, height := 0, bpp := 0, pitch := 0 }
  systemUptime _ := 0
  ticks _ := 0
  frequency _ := 0

/-- `sys_dup(0, 0, 3)` of the first process, which has three slots. -/
def dupToThree : KernelMove := .call 1 bareEnv .dup { rdi := 0, rsi := 0, rdx := 3, r10 := 0 }

/-- The kernel after it. -/
def afterDup : Kernel :=
  (Syscall.dup.handler librarySysAbi bareEnv.services
    { rdi := 0, rsi := 0, rdx := 3, r10 := 0 }).final (firstProcess.switchTo 1)

theorem step_dupToThree : KernelState.step librarySysAbi firstProcess dupToThree =
    some afterDup := by
  rw [dupToThree, KernelState.step]
  exact if_pos ⟨rfl, by decide⟩

theorem leaks_dupToThree : firstProcess.Leaks dupToThree :=
  ⟨by decide, by decide, by decide, 0, _, rfl, rfl, rfl, by decide⟩

/-- The first process starts with the counts right, and they are wrong after its `sys_dup`. -/
theorem first_dup_leaks : firstProcess.Accounted ∧ ¬ afterDup.Accounted :=
  ⟨(accounted_iff_no_leak librarySysAbi).1 _ (firstProcess_reached _ id) rfl,
    (accounted_iff_no_leak librarySysAbi).2 _ _ _ (firstProcess_reached _ id) step_dupToThree
      leaks_dupToThree⟩

/-- A failed `sys_dup` leaves the count of `/dev/null` at two, with one descriptor. -/
theorem failed_dup_counts : ¬ ∀ k, KernelState.Reaches librarySysAbi (fun _ _ ↦ True) k →
    k.rest.halted = none → k.Accounted := by
  intro h
  have hreached : KernelState.Reaches librarySysAbi (fun _ _ ↦ True) afterDup :=
    (firstProcess_reached _ trivial).step trivial step_dupToThree
  exact not_accounted_of_leaks librarySysAbi (firstProcess_reached _ id) step_dupToThree
    leaks_dupToThree (h afterDup hreached rfl)

end Borrrdex
