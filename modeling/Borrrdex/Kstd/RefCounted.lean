import Borrrdex.Basic
import Borrrdex.Lib.FiniteMap

/-!
# The kernel's `ref_counted` handles

A `ref_counted<T>` is two pointers: the object and a counter on the heap that all handles to the
object share.  `Handles` is the world such handles live in — the handle variables alive at the
moment, the counters, and the objects deleted so far — and `HandleOp` the eight things a program
can do to them.  An access to a counter that was freed is undefined, and is `none` here.

What the handles are *for* is said separately: `Owners` records which object each handle ought to
point to, in terms of the operations alone.  `Faithful` compares the two — every handle points to
its object, the counter is the number of handles, an object is deleted when the last one lets go.

Two of the operations do not keep it in general.  `operator=(nullptr)` releases the reference and
leaves the pointers in place when the object has other handles; assigning a handle to itself
releases before it retains, and so deletes an object that had only this handle.  `Permitted` is
what is left, and every run of permitted operations is faithful throughout.
-/

set_option autoImplicit false

namespace Borrrdex

open FiniteMap

variable {H T : Type} [DecidableEq H]

/-- The two fields of a `ref_counted`; a counter is named by its address. -/
structure Handle (T : Type) where
  obj : Option T
  refcount : Option ℕ
deriving DecidableEq

/-- `ref_counted(nullptr)`, and what a handle moved from is left with. -/
def Handle.null : Handle T := { obj := none, refcount := none }

/-- The live handles, the counters on the heap, the next free address for one, and the objects
deleted so far, in order. -/
structure Handles (H T : Type) where
  handles : Finmap fun _ : H ↦ Handle T
  counters : ℕ → Option U32
  next : ℕ
  deleted : List T

namespace Handles

/-- Before any handle is made. -/
def empty : Handles H T :=
  { handles := ∅, counters := fun _ ↦ none, next := 0, deleted := [] }

/-- `retain` on the handle `h`. -/
def retain (s : Handles H T) (h : H) : Option (Handles H T) := do
  let hd ← s.handles.lookup h
  match hd.refcount with
  | none => some s
  | some c => do
    let n ← s.counters c
    some { s with counters := Function.update s.counters c (some (n + 1)) }

/-- `release` on the handle `h`.  Its fields are reset only when the counter reaches zero. -/
def release (s : Handles H T) (h : H) : Option (Handles H T) := do
  let hd ← s.handles.lookup h
  match hd.refcount with
  | none => some s
  | some c => do
    let n ← s.counters c
    if n = 1 then
      some { s with
        handles := s.handles.insert h Handle.null
        counters := Function.update s.counters c none
        deleted := s.deleted ++ hd.obj.toList }
    else
      some { s with counters := Function.update s.counters c (some (n - 1)) }

theorem release_of_none {s : Handles H T} {h : H} {hd : Handle T}
    (hh : s.handles.lookup h = some hd) (hc : hd.refcount = none) : s.release h = some s := by
  simp only [release, hh, hc, Option.bind_eq_bind, Option.bind_some]

theorem release_of_one {s : Handles H T} {h : H} {hd : Handle T} {c : ℕ}
    (hh : s.handles.lookup h = some hd) (hc : hd.refcount = some c) (hn : s.counters c = some 1) :
    s.release h = some { s with
      handles := s.handles.insert h Handle.null
      counters := Function.update s.counters c none
      deleted := s.deleted ++ hd.obj.toList } := by
  simp only [release, hh, hc, hn, Option.bind_eq_bind, Option.bind_some, if_true]

theorem release_of_ne_one {s : Handles H T} {h : H} {hd : Handle T} {c : ℕ} {n : U32}
    (hh : s.handles.lookup h = some hd) (hc : hd.refcount = some c) (hn : s.counters c = some n)
    (h1 : n ≠ 1) :
    s.release h = some { s with counters := Function.update s.counters c (some (n - 1)) } := by
  simp only [release, hh, hc, hn, h1, Option.bind_eq_bind, Option.bind_some, if_false]

theorem retain_of_none {s : Handles H T} {h : H} {hd : Handle T}
    (hh : s.handles.lookup h = some hd) (hc : hd.refcount = none) : s.retain h = some s := by
  simp only [retain, hh, hc, Option.bind_eq_bind, Option.bind_some]

theorem retain_of_some {s : Handles H T} {h : H} {hd : Handle T} {c : ℕ} {n : U32}
    (hh : s.handles.lookup h = some hd) (hc : hd.refcount = some c) (hn : s.counters c = some n) :
    s.retain h = some { s with counters := Function.update s.counters c (some (n + 1)) } := by
  simp only [retain, hh, hc, hn, Option.bind_eq_bind, Option.bind_some]

/-- `ref_counted()` and `ref_counted(nullptr_t)`. -/
def constructNull (s : Handles H T) (h : H) : Handles H T :=
  { s with handles := s.handles.insert h Handle.null }

/-- `ref_counted(T* obj)`: a counter of one, also for a null pointer. -/
def construct (s : Handles H T) (h : H) (obj : Option T) : Handles H T :=
  { s with
    handles := s.handles.insert h { obj := obj, refcount := some s.next }
    counters := Function.update s.counters s.next (some 1)
    next := s.next + 1 }

/-- The copy constructor. -/
def copyConstruct (s : Handles H T) (h other : H) : Option (Handles H T) := do
  let hd ← s.handles.lookup other
  retain { s with handles := s.handles.insert h hd } h

/-- The move constructor. -/
def moveConstruct (s : Handles H T) (h other : H) : Option (Handles H T) := do
  let hd ← s.handles.lookup other
  some { s with handles := (s.handles.insert h hd).insert other Handle.null }

/-- The destructor: after it the handle is no more. -/
def destroy (s : Handles H T) (h : H) : Option (Handles H T) := do
  let s ← s.release h
  some { s with handles := s.handles.erase h }

/-- `operator=(const ref_counted&)`: the source is read after the release. -/
def copyAssign (s : Handles H T) (h ptr : H) : Option (Handles H T) := do
  let s ← s.release h
  let hd ← s.handles.lookup ptr
  retain { s with handles := s.handles.insert h hd } h

/-- `operator=(ref_counted&&)`. -/
def moveAssign (s : Handles H T) (h ptr : H) : Option (Handles H T) := do
  let s ← s.release h
  let hd ← s.handles.lookup ptr
  some { s with handles := (s.handles.insert h hd).insert ptr Handle.null }

/-- `operator=(nullptr_t)`: a release and nothing else. -/
def assignNull (s : Handles H T) (h : H) : Option (Handles H T) :=
  s.release h

end Handles

/-- What a program does to its handles. -/
inductive HandleOp (H T : Type) where
  | constructNull (h : H)
  | construct (h : H) (obj : Option T)
  | copyConstruct (h other : H)
  | moveConstruct (h other : H)
  | destroy (h : H)
  | copyAssign (h ptr : H)
  | moveAssign (h ptr : H)
  | assignNull (h : H)

/-- One operation. -/
def Handles.step (s : Handles H T) : HandleOp H T → Option (Handles H T)
  | .constructNull h => some (s.constructNull h)
  | .construct h obj => some (s.construct h obj)
  | .copyConstruct h other => s.copyConstruct h other
  | .moveConstruct h other => s.moveConstruct h other
  | .destroy h => s.destroy h
  | .copyAssign h ptr => s.copyAssign h ptr
  | .moveAssign h ptr => s.moveAssign h ptr
  | .assignNull h => s.assignNull h

/-- A program's operations in order. -/
def Handles.run (s : Handles H T) : List (HandleOp H T) → Option (Handles H T)
  | [] => some s
  | op :: ops => do
    let s ← s.step op
    s.run ops

/-! ## What the handles are for -/

/-- Which object each live handle owns a share of, and every object ever put under a handle. -/
structure Owners (H T : Type) where
  targets : Finmap fun _ : H ↦ Option T
  managed : List T

namespace Owners

def empty : Owners H T := { targets := ∅, managed := [] }

/-- The object a handle owns a share of. -/
def target (o : Owners H T) (h : H) : Option T :=
  (o.targets.lookup h).join

/-- The meaning of an operation: a copy shares, a move hands over and leaves its source empty, and
a handle destroyed or set to null lets go. -/
def step (o : Owners H T) : HandleOp H T → Owners H T
  | .constructNull h => { o with targets := o.targets.insert h none }
  | .construct h obj =>
    { targets := o.targets.insert h obj, managed := o.managed ++ obj.toList }
  | .copyConstruct h other => { o with targets := o.targets.insert h (o.target other) }
  | .moveConstruct h other =>
    { o with targets := (o.targets.insert h (o.target other)).insert other none }
  | .destroy h => { o with targets := o.targets.erase h }
  | .copyAssign h ptr => { o with targets := o.targets.insert h (o.target ptr) }
  | .moveAssign h ptr =>
    { o with targets := (o.targets.insert h (o.target ptr)).insert ptr none }
  | .assignNull h => { o with targets := o.targets.insert h none }

def run (o : Owners H T) (ops : List (HandleOp H T)) : Owners H T :=
  ops.foldl step o

end Owners

/-- **The handles do what they are for**: every handle points to the object it owns a share of and
to a counter that says how many handles point there; an object is deleted once no handle does, and
once only. -/
structure Faithful [DecidableEq T] (s : Handles H T) (o : Owners H T) : Prop where
  points : ∀ h, (s.handles.lookup h).map Handle.obj = o.targets.lookup h
  counted : ∀ h hd x, s.handles.lookup h = some hd → hd.obj = some x →
    ∃ c n, hd.refcount = some c ∧ s.counters c = some n ∧
      n.toNat = holders (fun hd ↦ hd.obj = some x) s.handles
  alive : ∀ h hd x, s.handles.lookup h = some hd → hd.obj = some x → x ∉ s.deleted
  deleted_once : s.deleted.Nodup
  deleted_iff : ∀ x ∈ o.managed,
    x ∈ s.deleted ↔ ∀ h hd, s.handles.lookup h = some hd → hd.obj ≠ some x

namespace HandleOp

/-- The operations a program can write at a point: a constructor makes a new handle, everything
else works on handles that exist. -/
def InScope (s : Handles H T) : HandleOp H T → Prop
  | .constructNull h | .construct h _ => h ∉ s.handles
  | .copyConstruct h other | .moveConstruct h other => h ∉ s.handles ∧ other ∈ s.handles
  | .destroy h | .assignNull h => h ∈ s.handles
  | .copyAssign h ptr | .moveAssign h ptr => h ∈ s.handles ∧ ptr ∈ s.handles

/-- The counter of `h`, when it has one, is not the largest `unsigned`. -/
def Room (s : Handles H T) (h : H) : Prop :=
  ∀ hd c, s.handles.lookup h = some hd → hd.refcount = some c →
    s.counters c ≠ some 0xffffffff#32

/-- Two handles with one counter. -/
def Share (s : Handles H T) (h ptr : H) : Prop :=
  (s.handles.lookup h).map Handle.refcount = (s.handles.lookup ptr).map Handle.refcount

/-- `h` is the only handle of an object. -/
def Sole (s : Handles H T) (h : H) : Prop :=
  ∃ hd x c, s.handles.lookup h = some hd ∧ hd.obj = some x ∧ hd.refcount = some c ∧
    s.counters c = some 1

/-- **The operations that keep the handles faithful**: a raw pointer is put under a handle once
only, the only handle of an object is not assigned to itself, `nullptr` is assigned to a handle
that has no counter or is its last user, and a counter does not overflow. -/
def Permitted (s : Handles H T) (o : Owners H T) : HandleOp H T → Prop
  | .construct _ obj => ∀ x, obj = some x → x ∉ o.managed
  | .copyConstruct _ other => Room s other
  | .copyAssign h ptr => (h = ptr → ¬ Sole s h) ∧ (Share s h ptr ∨ Room s ptr)
  | .assignNull h =>
    ∀ hd c, s.handles.lookup h = some hd → hd.refcount = some c → s.counters c = some 1
  | _ => True

end HandleOp

/-! ## The invariant

`ob c` is the object the counter at address `c` was made for.  It never changes, no two counters
have one object, and a handle's object is its counter's: counting the handles of an object is
counting the users of its counter. -/

/-- The users of the counter at `c`. -/
def Handles.users (s : Handles H T) (c : ℕ) : ℕ :=
  holders (fun hd ↦ hd.refcount = some c) s.handles

/-- The invariant that permitted operations keep. -/
structure HandleInv (s : Handles H T) (o : Owners H T) (ob : ℕ → Option T) : Prop where
  points : ∀ h, (s.handles.lookup h).map Handle.obj = o.targets.lookup h
  obj_eq : ∀ h hd, s.handles.lookup h = some hd → hd.obj = hd.refcount.bind ob
  counter_eq : ∀ c, (s.counters c).elim 0 BitVec.toNat = s.users c
  counter_ne : ∀ c, s.counters c ≠ some 0
  fresh : ∀ c, s.next ≤ c → s.counters c = none ∧ ob c = none
  ob_inj : ∀ c c' x, ob c = some x → ob c' = some x → c = c'
  managed_iff : ∀ x, x ∈ o.managed ↔ ∃ c, ob c = some x
  deleted_once : s.deleted.Nodup
  deleted_iff : ∀ x, x ∈ s.deleted ↔ ∃ c, ob c = some x ∧ s.counters c = none

namespace HandleInv

variable {s : Handles H T} {o : Owners H T} {ob : ℕ → Option T}

theorem empty : HandleInv (Handles.empty : Handles H T) Owners.empty fun _ ↦ none where
  points := fun _ ↦ rfl
  obj_eq := fun _ _ h ↦ by cases h
  counter_eq := fun _ ↦ rfl
  counter_ne := fun _ h ↦ by cases h
  fresh := fun _ _ ↦ ⟨rfl, rfl⟩
  ob_inj := fun _ _ _ h ↦ by cases h
  managed_iff := fun _ ↦ by simp [Owners.empty]
  deleted_once := List.nodup_nil
  deleted_iff := fun _ ↦ by simp [Handles.empty]

theorem target_eq (hI : HandleInv s o ob) {h : H} {hd : Handle T}
    (hh : s.handles.lookup h = some hd) : o.target h = hd.obj := by
  rw [Owners.target, ← hI.points h, hh]
  rfl

/-- A handle with a counter finds it on the heap, not zero. -/
theorem exists_counter (hI : HandleInv s o ob) {h : H} {hd : Handle T} {c : ℕ}
    (hh : s.handles.lookup h = some hd) (hc : hd.refcount = some c) :
    ∃ n, s.counters c = some n ∧ n.toNat = s.users c ∧ n ≠ 0 := by
  have hpos : 0 < s.users c := holders_pos _ hh hc
  have heq := hI.counter_eq c
  cases hn : s.counters c with
  | none =>
    rw [hn] at heq
    simp only [Option.elim_none] at heq
    omega
  | some n =>
    rw [hn] at heq
    exact ⟨n, rfl, heq, fun h0 ↦ hI.counter_ne c (by rw [hn, h0])⟩

/-- A handle without a counter is null. -/
theorem eq_null (hI : HandleInv s o ob) {h : H} {hd : Handle T}
    (hh : s.handles.lookup h = some hd) (hc : hd.refcount = none) : hd = Handle.null := by
  have hobj := hI.obj_eq h hd hh
  rw [hc] at hobj
  cases hd
  simp only [Option.bind_none] at hobj hc
  rw [hobj, hc, Handle.null]

/-- Changing one handle's pointers moves the expected targets along. -/
theorem points_insert (hI : HandleInv s o ob) (h : H) (hd : Handle T) (x : H) :
    ((s.handles.insert h hd).lookup x).map Handle.obj = (o.targets.insert h hd.obj).lookup x := by
  rw [lookup_insert_eq, lookup_insert_eq]
  split
  · rfl
  · exact hI.points x

theorem obj_eq_insert (hI : HandleInv s o ob) (h : H) {hd : Handle T}
    (hobj : hd.obj = hd.refcount.bind ob) (x : H) (hx : Handle T)
    (hl : (s.handles.insert h hd).lookup x = some hx) : hx.obj = hx.refcount.bind ob := by
  rw [lookup_insert_eq] at hl
  split at hl
  · cases hl
    exact hobj
  · exact hI.obj_eq x hx hl

/-- **One handle changes**: the invariant survives when the counters move with their users and
the objects deleted are those whose counters are gone. -/
theorem update_handle (hI : HandleInv s o ob) {h : H} {hd hd' : Handle T}
    (hh : s.handles.lookup h = some hd) (hobj : hd'.obj = hd'.refcount.bind ob)
    {counters : ℕ → Option U32} {deleted : List T}
    (hbal : ∀ c, ((counters c).elim 0 BitVec.toNat + if hd.refcount = some c then 1 else 0) =
      (s.counters c).elim 0 BitVec.toNat + if hd'.refcount = some c then 1 else 0)
    (hne : ∀ c, counters c ≠ some 0) (hfresh : ∀ c, s.next ≤ c → counters c = none)
    (honce : deleted.Nodup) (hdel : ∀ x, x ∈ deleted ↔ ∃ c, ob c = some x ∧ counters c = none) :
    HandleInv { s with handles := s.handles.insert h hd', counters := counters, deleted := deleted }
      { o with targets := o.targets.insert h hd'.obj } ob where
  points := hI.points_insert h hd'
  obj_eq := hI.obj_eq_insert h hobj
  counter_eq := fun c ↦ by
    have hu : (holders (fun hd ↦ hd.refcount = some c) (s.handles.insert h hd') +
        if hd.refcount = some c then 1 else 0) =
        s.users c + if hd'.refcount = some c then 1 else 0 := holders_insert _ hh hd'
    have hb := hbal c
    rw [hI.counter_eq c] at hb
    exact Nat.add_right_cancel (hb.trans hu.symm)
  counter_ne := hne
  fresh := fun c hc ↦ ⟨hfresh c hc, (hI.fresh c hc).2⟩
  ob_inj := hI.ob_inj
  managed_iff := hI.managed_iff
  deleted_once := honce
  deleted_iff := hdel

/-- A counter in use is below the next free address. -/
theorem not_fresh (hI : HandleInv s o ob) {c : ℕ} {n : U32} (hn : s.counters c = some n) :
    ¬ s.next ≤ c := fun hc ↦ by
  rw [(hI.fresh c hc).1] at hn
  cases hn

/-- Changing the value of a counter in use frees none and deletes nothing. -/
theorem deleted_iff_update (hI : HandleInv s o ob) {c : ℕ} {n : U32} (hn : s.counters c = some n)
    (n' : U32) (x : T) : x ∈ s.deleted ↔
      ∃ c', ob c' = some x ∧ Function.update s.counters c (some n') c' = none := by
  rw [hI.deleted_iff x]
  refine exists_congr fun c' ↦ and_congr_right fun _ ↦ ?_
  rw [Function.update_apply]
  split
  · next hc =>
    rw [hc, hn]
    simp
  · rfl

omit [DecidableEq H] in
/-- The balance of one counter that loses a user. -/
theorem balance_release {c : ℕ} {n : U32} (hn : s.counters c = some n) {v : Option U32}
    (hv : v.elim 0 BitVec.toNat + 1 = n.toNat) (x : ℕ) :
    ((Function.update s.counters c v x).elim 0 BitVec.toNat + if some c = some x then 1 else 0) =
      (s.counters x).elim 0 BitVec.toNat := by
  rw [Function.update_apply]
  by_cases hx : x = c
  · rw [if_pos hx, if_pos (congrArg some hx.symm), hx, hn, hv]
    rfl
  · rw [if_neg hx, if_neg fun h ↦ hx (Option.some.inj h).symm, Nat.add_zero]

/-- The last user of a counter takes the object along: it is deleted here and was not before. -/
theorem release_last (hI : HandleInv s o ob) {h : H} {hd : Handle T} {c : ℕ}
    (hh : s.handles.lookup h = some hd) (hc : hd.refcount = some c) (hn : s.counters c = some 1) :
    HandleInv { s with
        handles := s.handles.insert h Handle.null
        counters := Function.update s.counters c none
        deleted := s.deleted ++ hd.obj.toList }
      { o with targets := o.targets.insert h none } ob := by
  have hobj : hd.obj = ob c := by rw [hI.obj_eq h hd hh, hc, Option.bind_some]
  refine hI.update_handle hh rfl ?_ ?_ ?_ ?_ ?_
  · intro x
    rw [hc]
    exact balance_release hn rfl x
  · intro x hx
    rw [Function.update_apply] at hx
    split at hx
    · cases hx
    · exact hI.counter_ne x hx
  · intro x hx
    rw [Function.update_apply]
    split
    · rfl
    · exact (hI.fresh x hx).1
  · rw [List.nodup_append]
    refine ⟨hI.deleted_once, ?_, ?_⟩
    · cases hd.obj <;> simp
    · intro y hy z hz
      rintro rfl
      rw [Option.mem_toList, hobj] at hz
      obtain ⟨c', hc', hnone⟩ := (hI.deleted_iff y).mp hy
      rw [hI.ob_inj c' c y hc' hz, hn] at hnone
      cases hnone
  · intro x
    rw [List.mem_append, hI.deleted_iff x, hobj, Option.mem_toList]
    constructor
    · rintro (⟨c', hc', hnone⟩ | hx)
      · refine ⟨c', hc', ?_⟩
        rw [Function.update_apply, hnone, ite_self]
      · exact ⟨c, hx, Function.update_self ..⟩
    · rintro ⟨c', hc', hnone⟩
      rw [Function.update_apply] at hnone
      by_cases hx : c' = c
      · exact Or.inr (hx ▸ hc')
      · rw [if_neg hx] at hnone
        exact Or.inl ⟨c', hc', hnone⟩

/-- A counter with other users goes down by one. -/
theorem release_shared (hI : HandleInv s o ob) {h : H} {hd : Handle T} {c : ℕ} {n : U32}
    (hh : s.handles.lookup h = some hd) (hc : hd.refcount = some c) (hn : s.counters c = some n)
    (h1 : n ≠ 1) :
    HandleInv { s with
        handles := s.handles.insert h Handle.null
        counters := Function.update s.counters c (some (n - 1)) }
      { o with targets := o.targets.insert h none } ob := by
  have h0 : n ≠ 0 := fun h0 ↦ hI.counter_ne c (by rw [hn, h0])
  refine hI.update_handle hh rfl ?_ ?_ ?_ hI.deleted_once (hI.deleted_iff_update hn _)
  · intro x
    rw [hc]
    refine balance_release hn ?_ x
    rw [Option.elim_some]
    bv_omega
  · intro x hx
    rw [Function.update_apply] at hx
    split at hx
    · have h2 := Option.some.inj hx
      bv_omega
    · exact hI.counter_ne x hx
  · intro x hx
    rw [Function.update_apply, if_neg, (hI.fresh x hx).1]
    rintro rfl
    exact hI.not_fresh hn hx

/-- **What `release` leaves**: once the handle's pointers are replaced, as every caller but
`operator=(nullptr_t)` goes on to do, the handle has let go.  The counter it gave up is not at its
maximum, and the others did not move. -/
theorem release (hI : HandleInv s o ob) {h : H} {hd : Handle T}
    (hh : s.handles.lookup h = some hd) :
    ∃ s₁, s.release h = some s₁ ∧
      (s₁.handles = s.handles ∨ s₁.handles = s.handles.insert h Handle.null) ∧
      (∀ c, s₁.counters c = some 0xffffffff#32 →
        s.counters c = some 0xffffffff#32 ∧ hd.refcount ≠ some c) ∧
      HandleInv { s₁ with handles := s.handles.insert h Handle.null }
        { o with targets := o.targets.insert h none } ob := by
  cases hc : hd.refcount with
  | none =>
    refine ⟨s, Handles.release_of_none hh hc, Or.inl rfl, fun c hx ↦ ⟨hx, by simp⟩, ?_⟩
    refine hI.update_handle hh rfl ?_ hI.counter_ne (fun c hx ↦ (hI.fresh c hx).1)
      hI.deleted_once hI.deleted_iff
    intro c
    rw [hI.eq_null hh hc]
  | some c =>
    obtain ⟨n, hn, -, h0⟩ := hI.exists_counter hh hc
    have hmax : ∀ v : Option U32, v ≠ some 0xffffffff#32 → ∀ x,
        Function.update s.counters c v x = some 0xffffffff#32 →
          s.counters x = some 0xffffffff#32 ∧ some c ≠ some x := by
      intro v hv x hx
      rw [Function.update_apply] at hx
      split at hx
      · exact absurd hx hv
      · next hne => exact ⟨hx, fun he ↦ hne (Option.some.inj he).symm⟩
    by_cases h1 : n = 1
    · subst h1
      exact ⟨_, Handles.release_of_one hh hc hn, Or.inr rfl, hmax _ (by simp),
        hI.release_last hh hc hn⟩
    · refine ⟨_, Handles.release_of_ne_one hh hc hn h1, Or.inl rfl, hmax _ ?_,
        hI.release_shared hh hc hn h1⟩
      intro he
      have h2 := Option.some.inj he
      bv_omega

/-! ## The other primitives -/

/-- A copy into a null handle. -/
theorem share (hI : HandleInv s o ob) {h ptr : H} {hd : Handle T}
    (hh : s.handles.lookup h = some Handle.null) (hp : s.handles.lookup ptr = some hd)
    (hroom : HandleOp.Room s ptr) :
    ∃ s', Handles.retain { s with handles := s.handles.insert h hd } h = some s' ∧
      HandleInv s' { o with targets := o.targets.insert h hd.obj } ob := by
  have hobj := hI.obj_eq ptr hd hp
  cases hc : hd.refcount with
  | none =>
    refine ⟨_, Handles.retain_of_none (Finmap.lookup_insert s.handles) hc, ?_⟩
    refine hI.update_handle hh hobj ?_ hI.counter_ne (fun c hx ↦ (hI.fresh c hx).1)
      hI.deleted_once hI.deleted_iff
    intro c
    rw [hc]
    rfl
  | some c =>
    obtain ⟨n, hn, -, h0⟩ := hI.exists_counter hp hc
    have hmax : n ≠ 0xffffffff#32 := fun hm ↦ hroom hd c hp hc (by rw [hn, hm])
    refine ⟨_, Handles.retain_of_some (Finmap.lookup_insert s.handles) hc hn, ?_⟩
    refine hI.update_handle hh hobj ?_ ?_ ?_ hI.deleted_once (hI.deleted_iff_update hn _)
    · intro x
      rw [hc, Function.update_apply]
      by_cases hx : x = c
      · subst hx
        simp only [if_true, hn, Option.elim_some, Handle.null, reduceCtorEq, if_false]
        bv_omega
      · rw [if_neg hx, if_neg fun he ↦ hx (Option.some.inj he).symm]
        rfl
    · intro x hx
      rw [Function.update_apply] at hx
      split at hx
      · have h2 := Option.some.inj hx
        bv_omega
      · exact hI.counter_ne x hx
    · intro x hx
      rw [Function.update_apply, if_neg, (hI.fresh x hx).1]
      rintro rfl
      exact hI.not_fresh hn hx

/-- A move into a null handle: the counters stay as they are. -/
theorem transfer (hI : HandleInv s o ob) {h ptr : H} {hd : Handle T} (hne : h ≠ ptr)
    (hh : s.handles.lookup h = some Handle.null) (hp : s.handles.lookup ptr = some hd) :
    HandleInv { s with handles := (s.handles.insert h hd).insert ptr Handle.null }
      { o with targets := (o.targets.insert h hd.obj).insert ptr none } ob where
  points := fun x ↦ by
    simp only [lookup_insert_eq]
    split
    · rfl
    · split
      · rfl
      · exact hI.points x
  obj_eq := fun x hx hl ↦ by
    simp only [lookup_insert_eq] at hl
    split at hl
    · cases hl
      rfl
    · split at hl
      · cases hl
        exact hI.obj_eq ptr hd hp
      · exact hI.obj_eq x hx hl
  counter_eq := fun c ↦ by
    rw [hI.counter_eq c]
    have hp' : (s.handles.insert h hd).lookup ptr = some hd := by
      rw [Finmap.lookup_insert_of_ne _ (Ne.symm hne), hp]
    have h1 := holders_insert (fun hd ↦ hd.refcount = some c) hh hd
    have h2 := holders_insert (fun hd ↦ hd.refcount = some c) hp' Handle.null
    simp only [Handles.users, Handle.null, reduceCtorEq, if_false, Nat.add_zero] at h1 h2 ⊢
    omega
  counter_ne := hI.counter_ne
  fresh := hI.fresh
  ob_inj := hI.ob_inj
  managed_iff := hI.managed_iff
  deleted_once := hI.deleted_once
  deleted_iff := hI.deleted_iff

/-- A new null handle. -/
theorem constructNull (hI : HandleInv s o ob) {h : H} (hh : h ∉ s.handles) :
    HandleInv (s.constructNull h) { o with targets := o.targets.insert h none } ob where
  points := hI.points_insert h Handle.null
  obj_eq := hI.obj_eq_insert h rfl
  counter_eq := fun c ↦ by
    rw [Handles.constructNull, Handles.users, holders_insert_of_notMem _ hh]
    exact hI.counter_eq c
  counter_ne := hI.counter_ne
  fresh := hI.fresh
  ob_inj := hI.ob_inj
  managed_iff := hI.managed_iff
  deleted_once := hI.deleted_once
  deleted_iff := hI.deleted_iff

/-- A null handle goes out of scope. -/
theorem erase_null (hI : HandleInv s o ob) {h : H} (hh : s.handles.lookup h = some Handle.null) :
    HandleInv { s with handles := s.handles.erase h }
      { o with targets := o.targets.erase h } ob where
  points := fun x ↦ by
    rw [lookup_erase_eq, lookup_erase_eq]
    split
    · rfl
    · exact hI.points x
  obj_eq := fun x hx hl ↦ by
    rw [lookup_erase_eq] at hl
    split at hl
    · cases hl
    · exact hI.obj_eq x hx hl
  counter_eq := fun c ↦ by
    rw [hI.counter_eq c, Handles.users, holders_erase _ hh]
    rfl
  counter_ne := hI.counter_ne
  fresh := hI.fresh
  ob_inj := hI.ob_inj
  managed_iff := hI.managed_iff
  deleted_once := hI.deleted_once
  deleted_iff := hI.deleted_iff

/-- A new object under a new counter. -/
theorem construct (hI : HandleInv s o ob) {h : H} (hh : h ∉ s.handles) (obj : Option T)
    (hnew : ∀ x, obj = some x → x ∉ o.managed) :
    HandleInv (s.construct h obj)
      { targets := o.targets.insert h obj, managed := o.managed ++ obj.toList }
      (Function.update ob s.next obj) := by
  have hnext := hI.fresh s.next le_rfl
  have hother : ∀ c x, ob c = some x → obj ≠ some x := fun c x hc hx ↦
    hnew x hx ((hI.managed_iff x).mpr ⟨c, hc⟩)
  have hob : ∀ c x, Function.update ob s.next obj c = some x ↔
      (c = s.next ∧ obj = some x) ∨ ob c = some x := by
    intro c x
    rw [Function.update_apply]
    by_cases hc : c = s.next
    · simp [hc, hnext.2]
    · simp [hc]
  refine ⟨?_, ?_, ?_, ?_, ?_, ?_, ?_, hI.deleted_once, ?_⟩
  · exact hI.points_insert h _
  · intro x hx hl
    rw [Handles.construct, lookup_insert_eq] at hl
    split at hl
    · cases hl
      simp
    · have hobj := hI.obj_eq x hx hl
      cases hc : hx.refcount with
      | none =>
        rw [hobj, hc]
        rfl
      | some c =>
        obtain ⟨n, hn, -⟩ := hI.exists_counter hl hc
        have hcn : c ≠ s.next := fun he ↦ hI.not_fresh hn he.ge
        rw [hobj, hc, Option.bind_some, Option.bind_some, Function.update_of_ne hcn]
  · intro c
    have hc := hI.counter_eq c
    simp only [Handles.construct, Handles.users, holders_insert_of_notMem _ hh,
      Function.update_apply, Option.some.injEq] at hc ⊢
    by_cases hx : c = s.next
    · subst hx
      rw [hnext.1] at hc
      simpa using hc.symm
    · rw [if_neg hx, if_neg (Ne.symm hx), hc, Nat.add_zero]
  · intro c hc
    simp only [Handles.construct, Function.update_apply] at hc
    split at hc
    · cases hc
    · exact hI.counter_ne c hc
  · intro c hc
    simp only [Handles.construct] at hc ⊢
    have hcn : c ≠ s.next := Nat.ne_of_gt hc
    rw [Function.update_of_ne hcn, Function.update_of_ne hcn]
    exact hI.fresh c (Nat.le_of_succ_le hc)
  · intro c c' x hc hc'
    rcases (hob c x).mp hc with ⟨rfl, hx⟩ | hc
    · rcases (hob c' x).mp hc' with ⟨rfl, -⟩ | hc'
      · rfl
      · exact absurd hx (hother c' x hc')
    · rcases (hob c' x).mp hc' with ⟨-, hx⟩ | hc'
      · exact absurd hx (hother c x hc)
      · exact hI.ob_inj c c' x hc hc'
  · intro x
    rw [List.mem_append, hI.managed_iff x, Option.mem_toList]
    constructor
    · rintro (⟨c, hc⟩ | hx)
      · exact ⟨c, (hob c x).mpr (Or.inr hc)⟩
      · exact ⟨s.next, (hob _ x).mpr (Or.inl ⟨rfl, hx⟩)⟩
    · rintro ⟨c, hc⟩
      rcases (hob c x).mp hc with ⟨-, hx⟩ | hc
      · exact Or.inr hx
      · exact Or.inl ⟨c, hc⟩
  · intro x
    simp only [Handles.construct]
    rw [hI.deleted_iff x]
    constructor
    · rintro ⟨c, hc, hnone⟩
      have hcn : c ≠ s.next := by
        rintro rfl
        rw [hnext.2] at hc
        cases hc
      exact ⟨c, (hob c x).mpr (Or.inr hc), by rw [Function.update_of_ne hcn, hnone]⟩
    · rintro ⟨c, hc, hnone⟩
      have hcn : c ≠ s.next := by
        rintro rfl
        rw [Function.update_self] at hnone
        cases hnone
      rw [Function.update_of_ne hcn] at hnone
      exact ⟨c, ((hob c x).mp hc).resolve_left fun he ↦ hcn he.1, hnone⟩

/-! ## Whole runs -/

/-- The invariant gives what the handles are for: the handles of an object are the users of its
counter. -/
theorem faithful [DecidableEq T] (hI : HandleInv s o ob) : Faithful s o := by
  have hcount : ∀ c x, ob c = some x →
      s.users c = holders (fun hd ↦ hd.obj = some x) s.handles := by
    intro c x hc
    refine holders_congr _ _ fun h hd hh ↦ ?_
    rw [hI.obj_eq h hd hh]
    constructor
    · intro hr
      rw [hr, Option.bind_some, hc]
    · intro hx
      obtain ⟨c', hr, hc'⟩ := Option.bind_eq_some_iff.mp hx
      rw [hr, hI.ob_inj c' c x hc' hc]
  have hcounter : ∀ h hd x, s.handles.lookup h = some hd → hd.obj = some x →
      ∃ c n, hd.refcount = some c ∧ s.counters c = some n ∧ ob c = some x ∧
        n.toNat = s.users c := by
    intro h hd x hh hx
    obtain ⟨c, hr, hc⟩ := Option.bind_eq_some_iff.mp ((hI.obj_eq h hd hh).symm.trans hx)
    obtain ⟨n, hn, hu, -⟩ := hI.exists_counter hh hr
    exact ⟨c, n, hr, hn, hc, hu⟩
  refine ⟨hI.points, ?_, ?_, hI.deleted_once, ?_⟩
  · intro h hd x hh hx
    obtain ⟨c, n, hr, hn, hc, hu⟩ := hcounter h hd x hh hx
    exact ⟨c, n, hr, hn, hu.trans (hcount c x hc)⟩
  · intro h hd x hh hx hmem
    obtain ⟨c, n, -, hn, hc, -⟩ := hcounter h hd x hh hx
    obtain ⟨c', hc', hnone⟩ := (hI.deleted_iff x).mp hmem
    rw [hI.ob_inj c' c x hc' hc, hn] at hnone
    cases hnone
  · intro x hx
    obtain ⟨c, hc⟩ := (hI.managed_iff x).mp hx
    have hzero := holders_eq_zero_iff (fun hd : Handle T ↦ hd.obj = some x) (m := s.handles)
    rw [← hcount c x hc, ← hI.counter_eq c] at hzero
    rw [hI.deleted_iff x]
    refine Iff.trans ?_ hzero
    constructor
    · rintro ⟨c', hc', hnone⟩
      rw [hI.ob_inj c' c x hc' hc] at hnone
      rw [hnone, Option.elim_none]
    · intro h0
      refine ⟨c, hc, ?_⟩
      cases hn : s.counters c with
      | none => rfl
      | some n =>
        rw [hn, Option.elim_some] at h0
        have hn0 : n = 0 := BitVec.eq_of_toNat_eq h0
        exact absurd (hn0 ▸ hn) (hI.counter_ne c)

/-- An assignment of a handle to itself, when it is not the only one of its object. -/
theorem copyAssign_self (hI : HandleInv s o ob) {h : H} (hh : h ∈ s.handles)
    (hsole : ¬ HandleOp.Sole s h) :
    ∃ s', s.copyAssign h h = some s' ∧ HandleInv s' (o.step (.copyAssign h h)) ob := by
  obtain ⟨hd, hh⟩ := Finmap.mem_iff.mp hh
  have hself : s.handles.insert h hd = s.handles := insert_of_lookup hh
  have htarget : o.targets.insert h (o.target h) = o.targets := by
    refine insert_of_lookup ?_
    rw [hI.target_eq hh, ← hI.points h, hh]
    rfl
  rw [Owners.step, htarget]
  cases hc : hd.refcount with
  | none =>
    refine ⟨s, ?_, hI⟩
    simp only [Handles.copyAssign, Handles.release_of_none hh hc, Option.bind_eq_bind,
      Option.bind_some, hh, hself, Handles.retain_of_none hh hc]
  | some c =>
    obtain ⟨n, hn, -, -⟩ := hI.exists_counter hh hc
    by_cases h1 : n = 1
    · -- the counter of a null pointer: nothing is deleted
      subst h1
      have hobj : hd.obj = none := by
        cases hx : hd.obj with
        | none => rfl
        | some x => exact absurd ⟨hd, x, c, hh, hx, hc, hn⟩ hsole
      have hnone : o.targets.insert h none = o.targets := by
        rw [hI.target_eq hh, hobj] at htarget
        exact htarget
      have hlast := hI.release_last hh hc hn
      rw [hnone] at hlast
      refine ⟨_, ?_, hlast⟩
      simp only [Handles.copyAssign, Handles.release_of_one hh hc hn, Option.bind_eq_bind,
        Option.bind_some, Finmap.lookup_insert, Finmap.insert_insert]
      exact Handles.retain_of_none (Finmap.lookup_insert s.handles) rfl
    · refine ⟨s, ?_, hI⟩
      have hback : Function.update (Function.update s.counters c (some (n - 1))) c
          (some (n - 1 + 1)) = s.counters := by
        rw [Function.update_idem, BitVec.sub_add_cancel, ← hn, Function.update_eq_self]
      have hdown : Finmap.lookup h ({ s with
          counters := Function.update s.counters c (some (n - 1)) } : Handles H T).handles =
          some hd := hh
      have hret : Handles.retain
          { s with counters := Function.update s.counters c (some (n - 1)) } h = some s := by
        rw [Handles.retain_of_some hdown hc (Function.update_self ..), hback]
      simp only [Handles.copyAssign, Handles.release_of_ne_one hh hc hn h1, Option.bind_eq_bind,
        Option.bind_some, hh, hself, hret]

/-- What a released handle is overwritten with is all that is left of it. -/
theorem insert_released {m m₁ : Finmap fun _ : H ↦ Handle T} {h : H}
    (h₁ : m₁ = m ∨ m₁ = m.insert h Handle.null) (hd : Handle T) :
    m₁.insert h hd = (m.insert h Handle.null).insert h hd := by
  rw [Finmap.insert_insert]
  rcases h₁ with rfl | rfl
  · rfl
  · rw [Finmap.insert_insert]

/-- A release does not touch other handles. -/
theorem lookup_released {m m₁ : Finmap fun _ : H ↦ Handle T} {h ptr : H} (hne : h ≠ ptr)
    (h₁ : m₁ = m ∨ m₁ = m.insert h Handle.null) : m₁.lookup ptr = m.lookup ptr := by
  rcases h₁ with rfl | rfl
  · rfl
  · rw [Finmap.lookup_insert_of_ne _ (Ne.symm hne)]

/-- An assignment from another handle. -/
theorem copyAssign (hI : HandleInv s o ob) {h ptr : H} (hne : h ≠ ptr) (hh : h ∈ s.handles)
    (hp : ptr ∈ s.handles) (hroom : HandleOp.Share s h ptr ∨ HandleOp.Room s ptr) :
    ∃ s', s.copyAssign h ptr = some s' ∧ HandleInv s' (o.step (.copyAssign h ptr)) ob := by
  obtain ⟨hd, hh⟩ := Finmap.mem_iff.mp hh
  obtain ⟨hd', hp⟩ := Finmap.mem_iff.mp hp
  obtain ⟨s₁, hrel, hins, hmax, hI₁⟩ := hI.release hh
  have hp₁ : (s.handles.insert h Handle.null).lookup ptr = some hd' := by
    rw [Finmap.lookup_insert_of_ne _ (Ne.symm hne), hp]
  have hroom₁ : HandleOp.Room { s₁ with handles := s.handles.insert h Handle.null } ptr := by
    intro hd'' c hl hc hcmax
    obtain rfl : hd' = hd'' := Option.some.inj (hp₁.symm.trans hl)
    obtain ⟨hcs, hdc⟩ := hmax c hcmax
    rcases hroom with hshare | hroom
    · rw [HandleOp.Share, hh, hp, Option.map_some, Option.map_some, hc] at hshare
      exact hdc (Option.some.inj hshare)
    · exact hroom hd' c hp hc hcs
  obtain ⟨s', hs', hI'⟩ := hI₁.share (Finmap.lookup_insert s.handles) hp₁ hroom₁
  refine ⟨s', ?_, ?_⟩
  · rw [Handles.copyAssign, hrel]
    simp only [Option.bind_eq_bind, Option.bind_some, lookup_released hne hins, hp,
      insert_released hins]
    exact hs'
  · rw [Owners.step, hI.target_eq hp]
    simpa only [Finmap.insert_insert] using hI'

/-- A move assignment, also of a handle to itself: the handle lets go, and takes what the other
has. -/
theorem moveAssign (hI : HandleInv s o ob) {h ptr : H} (hh : h ∈ s.handles)
    (hp : ptr ∈ s.handles) :
    ∃ s', s.moveAssign h ptr = some s' ∧ HandleInv s' (o.step (.moveAssign h ptr)) ob := by
  obtain ⟨hd, hh⟩ := Finmap.mem_iff.mp hh
  obtain ⟨hd', hp⟩ := Finmap.mem_iff.mp hp
  obtain ⟨s₁, hrel, hins, -, hI₁⟩ := hI.release hh
  rw [Handles.moveAssign, hrel, Owners.step, hI.target_eq hp]
  simp only [Option.bind_eq_bind, Option.bind_some, insert_released hins]
  by_cases hne : h = ptr
  · subst hne
    simp only [Finmap.insert_insert]
    obtain ⟨hd₁, hh₁⟩ : ∃ hd₁, s₁.handles.lookup h = some hd₁ := by
      rcases hins with he | he
      · exact ⟨hd, by rw [he, hh]⟩
      · exact ⟨Handle.null, by rw [he, Finmap.lookup_insert]⟩
    rw [hh₁, Option.bind_some]
    exact ⟨_, rfl, hI₁⟩
  · have hp₁ : (s.handles.insert h Handle.null).lookup ptr = some hd' := by
      rw [Finmap.lookup_insert_of_ne _ (Ne.symm hne), hp]
    have hI₂ := hI₁.transfer hne (Finmap.lookup_insert s.handles) hp₁
    rw [lookup_released hne hins, hp, Option.bind_some]
    simp only [Finmap.insert_insert] at hI₂ ⊢
    exact ⟨_, rfl, hI₂⟩

/-- The copy constructor: a new handle, then a share. -/
theorem copyConstruct (hI : HandleInv s o ob) {h other : H} (hh : h ∉ s.handles)
    (hp : other ∈ s.handles) (hroom : HandleOp.Room s other) :
    ∃ s', s.copyConstruct h other = some s' ∧
      HandleInv s' (o.step (.copyConstruct h other)) ob := by
  have hne : other ≠ h := fun he ↦ hh (he ▸ hp)
  obtain ⟨hd, hp⟩ := Finmap.mem_iff.mp hp
  have hp₁ : (s.handles.insert h Handle.null).lookup other = some hd := by
    rw [Finmap.lookup_insert_of_ne _ hne, hp]
  have hroom₁ : HandleOp.Room (s.constructNull h) other := by
    intro hd' c hl hc
    obtain rfl : hd = hd' := Option.some.inj (hp₁.symm.trans hl)
    exact hroom hd c hp hc
  obtain ⟨s', hs', hI'⟩ := (hI.constructNull hh).share (Finmap.lookup_insert s.handles) hp₁ hroom₁
  refine ⟨s', ?_, ?_⟩
  · rw [← hs', Handles.copyConstruct, hp, Handles.constructNull]
    simp only [Option.bind_eq_bind, Option.bind_some, Finmap.insert_insert]
  · rw [Owners.step, hI.target_eq hp]
    simpa only [Finmap.insert_insert] using hI'

/-- The move constructor: a new handle, then a transfer. -/
theorem moveConstruct (hI : HandleInv s o ob) {h other : H} (hh : h ∉ s.handles)
    (hp : other ∈ s.handles) :
    ∃ s', s.moveConstruct h other = some s' ∧
      HandleInv s' (o.step (.moveConstruct h other)) ob := by
  have hne : other ≠ h := fun he ↦ hh (he ▸ hp)
  obtain ⟨hd, hp⟩ := Finmap.mem_iff.mp hp
  have hp₁ : (s.handles.insert h Handle.null).lookup other = some hd := by
    rw [Finmap.lookup_insert_of_ne _ hne, hp]
  have hI₁ := (hI.constructNull hh).transfer (Ne.symm hne) (Finmap.lookup_insert s.handles) hp₁
  rw [Handles.moveConstruct, hp, Owners.step, hI.target_eq hp]
  simp only [Option.bind_eq_bind, Option.bind_some, Handles.constructNull,
    Finmap.insert_insert] at hI₁ ⊢
  exact ⟨_, rfl, hI₁⟩

/-- The destructor: the handle lets go and is gone. -/
theorem destroy (hI : HandleInv s o ob) {h : H} (hh : h ∈ s.handles) :
    ∃ s', s.destroy h = some s' ∧ HandleInv s' (o.step (.destroy h)) ob := by
  obtain ⟨hd, hh⟩ := Finmap.mem_iff.mp hh
  obtain ⟨s₁, hrel, hins, -, hI₁⟩ := hI.release hh
  have hI₂ := hI₁.erase_null (Finmap.lookup_insert s.handles)
  have herase : s₁.handles.erase h = s.handles.erase h := by
    rcases hins with he | he
    · rw [he]
    · rw [he, erase_insert_self]
  rw [Handles.destroy, hrel, Owners.step]
  simp only [Option.bind_eq_bind, Option.bind_some, erase_insert_self, herase] at hI₂ ⊢
  exact ⟨_, rfl, hI₂⟩

/-- `operator=(nullptr_t)` on a handle that has no counter or is its last user. -/
theorem assignNull (hI : HandleInv s o ob) {h : H} (hh : h ∈ s.handles)
    (hlast : ∀ hd c, s.handles.lookup h = some hd → hd.refcount = some c →
      s.counters c = some 1) :
    ∃ s', s.assignNull h = some s' ∧ HandleInv s' (o.step (.assignNull h)) ob := by
  obtain ⟨hd, hh⟩ := Finmap.mem_iff.mp hh
  rw [Handles.assignNull, Owners.step]
  cases hc : hd.refcount with
  | none =>
    have htarget : o.targets.insert h none = o.targets := by
      refine insert_of_lookup ?_
      rw [← hI.points h, hh, hI.eq_null hh hc]
      rfl
    rw [htarget]
    exact ⟨s, Handles.release_of_none hh hc, hI⟩
  | some c =>
    have hn := hlast hd c hh hc
    exact ⟨_, Handles.release_of_one hh hc hn, hI.release_last hh hc hn⟩

/-- **A permitted operation keeps the invariant.** -/
theorem step (hI : HandleInv s o ob) {op : HandleOp H T} (hscope : op.InScope s)
    (hperm : op.Permitted s o) :
    ∃ s' ob', s.step op = some s' ∧ HandleInv s' (o.step op) ob' := by
  cases op with
  | constructNull h => exact ⟨_, ob, rfl, hI.constructNull hscope⟩
  | construct h obj => exact ⟨_, _, rfl, hI.construct hscope obj hperm⟩
  | copyConstruct h other =>
    obtain ⟨s', hs, hI'⟩ := hI.copyConstruct hscope.1 hscope.2 hperm
    exact ⟨s', ob, hs, hI'⟩
  | moveConstruct h other =>
    obtain ⟨s', hs, hI'⟩ := hI.moveConstruct hscope.1 hscope.2
    exact ⟨s', ob, hs, hI'⟩
  | destroy h =>
    obtain ⟨s', hs, hI'⟩ := hI.destroy hscope
    exact ⟨s', ob, hs, hI'⟩
  | copyAssign h ptr =>
    by_cases hne : h = ptr
    · subst hne
      obtain ⟨s', hs, hI'⟩ := hI.copyAssign_self hscope.1 (hperm.1 rfl)
      exact ⟨s', ob, hs, hI'⟩
    · obtain ⟨s', hs, hI'⟩ := hI.copyAssign hne hscope.1 hscope.2 hperm.2
      exact ⟨s', ob, hs, hI'⟩
  | moveAssign h ptr =>
    obtain ⟨s', hs, hI'⟩ := hI.moveAssign hscope.1 hscope.2
    exact ⟨s', ob, hs, hI'⟩
  | assignNull h =>
    obtain ⟨s', hs, hI'⟩ := hI.assignNull hscope hperm
    exact ⟨s', ob, hs, hI'⟩

end HandleInv

theorem Handles.run_append (s : Handles H T) (past next : List (HandleOp H T)) :
    s.run (past ++ next) = (s.run past).bind fun s' ↦ s'.run next := by
  induction past generalizing s with
  | nil => rfl
  | cons op past ih =>
    rw [List.cons_append, Handles.run, Handles.run]
    cases s.step op with
    | none => rfl
    | some s' => exact ih s'

/-- Every operation of the program is in scope and permitted where it stands. -/
def PermittedRun (ops : List (HandleOp H T)) : Prop :=
  ∀ past op, past ++ [op] <+: ops → ∀ s, Handles.empty.run past = some s →
    op.InScope s ∧ op.Permitted s (Owners.empty.run past)

theorem permittedRun_nil : PermittedRun ([] : List (HandleOp H T)) := by
  intro past op hp
  exact absurd (List.prefix_nil.mp hp) (by simp)

theorem PermittedRun.snoc {ops : List (HandleOp H T)} (h : PermittedRun ops) {s : Handles H T}
    (hs : Handles.empty.run ops = some s) {op : HandleOp H T} (hscope : op.InScope s)
    (hperm : op.Permitted s (Owners.empty.run ops)) : PermittedRun (ops ++ [op]) := by
  intro past op' hp
  rcases List.prefix_concat_iff.mp hp with he | hp
  · obtain ⟨rfl, hop⟩ := List.append_inj' he rfl
    cases hop
    intro s' hs'
    obtain rfl : s = s' := Option.some.inj (hs.symm.trans hs')
    exact ⟨hscope, hperm⟩
  · exact h past op' hp

theorem PermittedRun.exists_inv {ops : List (HandleOp H T)} (h : PermittedRun ops) :
    ∃ s ob, Handles.empty.run ops = some s ∧ HandleInv s (Owners.empty.run ops) ob := by
  induction ops using List.reverseRecOn with
  | nil => exact ⟨_, _, rfl, HandleInv.empty⟩
  | append_singleton ops op ih =>
    obtain ⟨s, ob, hs, hI⟩ := ih fun past op' hp ↦ h past op' (hp.trans (List.prefix_append _ _))
    obtain ⟨hscope, hperm⟩ := h ops op (List.prefix_refl _) s hs
    obtain ⟨s', ob', hstep, hI'⟩ := hI.step hscope hperm
    refine ⟨s', ob', ?_, ?_⟩
    · rw [Handles.run_append, hs, Option.bind_some, Handles.run, hstep]
      rfl
    · rw [Owners.run, List.foldl_append]
      exact hI'

/-- **Every run of permitted operations is faithful throughout**: at each point the counters are
the numbers of handles, and an object is deleted once, when its last handle lets go. -/
theorem ref_counted_faithful [DecidableEq T] (ops : List (HandleOp H T)) (h : PermittedRun ops) :
    ∀ past, past <+: ops → ∃ s, Handles.empty.run past = some s ∧
      Faithful s (Owners.empty.run past) := by
  intro past hp
  have hpast : PermittedRun past := fun past' op hp' ↦ h past' op (hp'.trans hp)
  obtain ⟨s, ob, hs, hI⟩ := hpast.exists_inv
  exact ⟨s, hs, hI.faithful⟩

/-- A handle, a copy of it, and the end of the first. -/
theorem ref_counted_faithful_copy :
    PermittedRun ([.construct 0 (some 7), .copyConstruct 1 0, .destroy 0] : List (HandleOp ℕ ℕ)) ∧
    ∃ s, Handles.empty.run ([.construct 0 (some 7), .copyConstruct 1 0, .destroy 0] :
      List (HandleOp ℕ ℕ)) = some s ∧
      Faithful s (Owners.empty.run [.construct 0 (some 7), .copyConstruct 1 0, .destroy 0]) := by
  have h₁ : PermittedRun ([] ++ [HandleOp.construct 0 (some 7)] : List (HandleOp ℕ ℕ)) :=
    permittedRun_nil.snoc rfl Finmap.notMem_empty fun _ _ ↦ List.not_mem_nil
  have h₂ : PermittedRun ([.construct 0 (some 7)] ++ [.copyConstruct 1 0] :
      List (HandleOp ℕ ℕ)) := by
    refine h₁.snoc rfl ⟨by decide, by decide⟩ ?_
    rintro hd c hl hc
    cases hl
    cases hc
    decide
  have h₃ : PermittedRun ([.construct 0 (some 7), .copyConstruct 1 0] ++ [.destroy 0] :
      List (HandleOp ℕ ℕ)) := h₂.snoc rfl (Finmap.mem_iff.mpr ⟨_, rfl⟩) trivial
  exact ⟨h₃, ref_counted_faithful _ h₃ _ (List.prefix_refl _)⟩

/-- `operator=(nullptr_t)` on one of two handles: the counter says one and both still point to the
object, so the end of the first handle deletes the object under the second.  And an object whose
only handle is assigned to itself is deleted, though the handle should still own it. -/
theorem null_assignment_dangles :
    (∃ s, Handles.empty.run ([.construct 0 (some 7), .copyConstruct 1 0, .assignNull 0,
        .destroy 0] : List (HandleOp ℕ ℕ)) = some s ∧
      s.deleted = [7] ∧ s.handles.lookup 1 = some { obj := some 7, refcount := some 0 } ∧
      ¬ Faithful s (Owners.empty.run
        [.construct 0 (some 7), .copyConstruct 1 0, .assignNull 0, .destroy 0])) ∧
    ∃ s, Handles.empty.run ([.construct 0 (some 7), .copyAssign 0 0] : List (HandleOp ℕ ℕ)) =
        some s ∧ s.deleted = [7] ∧
      ¬ Faithful s (Owners.empty.run [.construct 0 (some 7), .copyAssign 0 0]) := by
  refine ⟨⟨_, rfl, rfl, rfl, ?_⟩, ⟨_, rfl, rfl, ?_⟩⟩
  · intro h
    exact h.alive 1 _ 7 rfl rfl (by decide)
  · intro h
    have h0 := h.points 0
    revert h0
    decide

end Borrrdex
