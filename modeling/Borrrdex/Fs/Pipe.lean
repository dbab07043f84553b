import Borrrdex.Kstd.DataStream
import Borrrdex.Kstd.RefCounted

/-!
# Pipes

`create_pipe` makes two nodes that point at each other and share a `data_stream` through
`ref_counted` handles, one in each.  A node counts the descriptors that refer to it and deletes
itself when the last is closed; it then marks the other end as widowed.

A call is one step here.  What a call of `read` does when it would have to wait is left to
`Fs.PipeSleep`.  A use of a field of an end that has been deleted has no effect in the model, and is
recorded in `dangling`.

`Fifo` is the invariant of every run.  The stream holds what has been written and not yet read, the
handles in the ends that are left keep it alive, and an end is widowed exactly when the other is
gone.
-/

set_option autoImplicit false

namespace Borrrdex

/-- The two ends of a pipe. -/
inductive Side
  | readEnd
  | writeEnd
deriving DecidableEq

/-- The end at `_other_end`. -/
def Side.other : Side → Side
  | .readEnd => .writeEnd
  | .writeEnd => .readEnd

/-- The handles on the stream: in the two ends, and the local variable and the constructor argument
of `create_pipe`. -/
inductive StreamHandle
  | inEnd (side : Side)
  | localVar
  | argument
deriving DecidableEq

/-- A `unix_pipe`, apart from `_end` and the two pointers. -/
structure UnixPipe where
  widowed : Bool
  handleCount : U32
  watching : List ℕ

/-- A pipe: the ends that have not been deleted, the handles on the stream, the stream, memory, and
the deleted ends that were used since, in order. -/
structure Pipe where
  ends : Side → Option UnixPipe
  handles : Handles StreamHandle Unit
  stream : DataStream
  mem : ByteMem
  dangling : List Side

/-- The errors of pipe operations. -/
inductive PipeError
  | espipe
  | epipe
deriving DecidableEq

/-- What a call returns: a count, with the bytes then found in the caller's buffer, or an error; or
the thread goes to sleep, or spins for ever in a call to the stream. -/
inductive PipeResult
  | ok (count : U64) (data : List Byte)
  | failed (error : PipeError)
  | sleeps
  | spins

namespace Pipe

/-- `DATASTREAM_BUFSIZE_DEFAULT`. -/
def bufSizeDefault : U64 := 1024

/-- What `create_pipe` does to the handles on the stream: one for the local variable, which is
copied to the argument of each constructor and from there to the member. -/
def createHandles : Option (Handles StreamHandle Unit) :=
  Handles.empty.run
    [.construct .localVar (some ()),
      .copyConstruct .argument .localVar, .copyConstruct (.inEnd .readEnd) .argument,
      .destroy .argument,
      .copyConstruct .argument .localVar, .copyConstruct (.inEnd .writeEnd) .argument,
      .destroy .argument,
      .destroy .localVar]

/-- `create_pipe`, with the block `malloc` returns for the stream's bytes.  `lock` is what the
memory that the stream itself is put into holds at `_stream_lock`, which no constructor sets. -/
def createPipe (lock : U32) (buffer : ℕ) (mem : ByteMem) : Option Pipe :=
  createHandles.map fun handles ↦
    { ends := fun _ ↦ some { widowed := false, handleCount := 0, watching := [] }
      handles := handles
      stream :=
        { streamLock := lock, bufferSize := bufSizeDefault, bufferPos := 0, buffer := buffer }
      mem := mem
      dangling := [] }

/-- The stream behind the handle in an end, unless it was deleted. -/
def streamOf (p : Pipe) (side : Side) : Option DataStream :=
  (p.handles.handles.lookup (.inEnd side)).bind fun hd ↦ hd.obj.bind fun obj ↦
    if obj ∈ p.handles.deleted then none else some p.stream

/-- The fields of an end replaced, or the end deleted. -/
def setEnd (p : Pipe) (side : Side) (e : Option UnixPipe) : Pipe :=
  { p with ends := Function.update p.ends side e }

@[simp] theorem setEnd_self (p : Pipe) (side : Side) (e : Option UnixPipe) :
    (p.setEnd side e).ends side = e := Function.update_self ..

theorem setEnd_of_ne (p : Pipe) {side x : Side} (h : x ≠ side) (e : Option UnixPipe) :
    (p.setEnd side e).ends x = p.ends x := Function.update_of_ne h ..

@[simp] theorem setEnd_other (p : Pipe) (side : Side) (e : Option UnixPipe) :
    (p.setEnd side e).ends side.other = p.ends side.other :=
  setEnd_of_ne p (by cases side <;> decide) e

@[simp] theorem setEnd_handles (p : Pipe) (side : Side) (e : Option UnixPipe) :
    (p.setEnd side e).handles = p.handles := rfl

@[simp] theorem setEnd_dangling (p : Pipe) (side : Side) (e : Option UnixPipe) :
    (p.setEnd side e).dangling = p.dangling := rfl

/-- `fs_node::open`, and `add_handle`. -/
def open_ (p : Pipe) (side : Side) (this : UnixPipe) : Pipe :=
  p.setEnd side (some { this with handleCount := this.handleCount + 1 })

/-- A store to a field of the other end. -/
def modifyOther (p : Pipe) (side : Side) (f : UnixPipe → UnixPipe) : Pipe :=
  match p.ends side.other with
  | some other => p.setEnd side.other (some (f other))
  | none => { p with dangling := p.dangling ++ [side.other] }

/-- `delete this`: the destructor releases the handle on the stream. -/
def deleteEnd (p : Pipe) (side : Side) : Option Pipe :=
  (p.handles.destroy (.inEnd side)).map fun handles ↦
    { p.setEnd side none with handles := handles }

/-- `unix_pipe::close`.  The count is unsigned, so that `_handle_count <= 0` tests for zero, and
`_other_end` is never null. -/
def close (p : Pipe) (side : Side) (this : UnixPipe) : Option Pipe :=
  let this := { this with handleCount := this.handleCount - 1 }
  let p := p.setEnd side (some this)
  if this.handleCount = 0 then
    (p.modifyOther side fun other ↦ { other with widowed := true }).deleteEnd side
  else some p

/-- A call to the stream that does not return.  It has set the lock word, so that nobody gets the
lock any more. -/
def spin (p : Pipe) (stream : DataStream) : Pipe × PipeResult :=
  ({ p with stream := { stream with streamLock := 1 } }, .spins)

/-- `unix_pipe::read`. -/
def read (p : Pipe) (side : Side) (this : UnixPipe) (data : ℕ) (size : U64) :
    Option (Pipe × PipeResult) :=
  if side ≠ .readEnd then some (p, .failed .espipe)
  else do
    let stream ← p.streamOf side
    if !this.widowed && stream.empty then some (p, .sleeps)
    else
      let size := minU64 size stream.bufferPos
      match stream.read data size p.mem with
      | none => some (p.spin stream)
      | some r =>
        some ({ p with stream := r.2.1, mem := r.2.2 }, .ok r.1 (bytesAt r.2.2 data r.1.toNat))

/-- `unix_pipe::write`.  The watchers of the other end are signalled and dropped. -/
def write (realloc : Realloc) (p : Pipe) (side : Side) (this : UnixPipe) (data : ℕ) (size : U64) :
    Option (Pipe × PipeResult) :=
  if side ≠ .writeEnd then some (p, .failed .espipe)
  else if this.widowed then some (p, .failed .epipe)
  else do
    let stream ← p.streamOf side
    match stream.write realloc data size p.mem with
    | none => some (p.spin stream)
    | some r =>
      let p := { p with stream := r.2.1, mem := r.2.2 }
      some (p.modifyOther side fun other ↦ { other with watching := [] }, .ok r.1 [])

end Pipe

/-- What the holders of descriptors do.  A writer's buffer at `data` holds `bytes`; what else the
callers keep in their memory is theirs. -/
inductive PipeOp
  | open_ (side : Side)
  | close (side : Side)
  | read (side : Side) (data : ℕ) (size : U64)
  | write (side : Side) (data : ℕ) (bytes : List Byte)

/-- The end an operation is called on. -/
def PipeOp.side : PipeOp → Side
  | .open_ side | .close side | .read side _ _ | .write side _ _ => side

/-- The bytes a write is about. -/
def PipeOp.bytes : PipeOp → List Byte
  | .write _ _ bytes => bytes
  | _ => []

/-- The caller's buffer lies in the callers' memory. -/
def PipeOp.FromCallers (callers : Set ℕ) : PipeOp → Prop
  | .read _ data size => ∀ i < size.toNat, data + i ∈ callers
  | .write _ data bytes => ∀ i < bytes.length, data + i ∈ callers
  | _ => True

/-- The bytes a call that returned `res` has put into the pipe. -/
def PipeOp.written (op : PipeOp) : PipeResult → List Byte
  | .ok _ _ => op.bytes
  | _ => []

/-- The bytes a call has returned. -/
def PipeResult.returned : PipeResult → List Byte
  | .ok _ data => data
  | _ => []

/-- The caller's bytes in memory. -/
def storeBytes (m : ByteMem) (data : ℕ) (bytes : List Byte) : ByteMem :=
  fun a ↦ if data ≤ a then bytes.getD (a - data) (m a) else m a

/-- One operation, on the end `this`. -/
def Pipe.stepOn (realloc : Realloc) (p : Pipe) (op : PipeOp) (this : UnixPipe) :
    Option (Pipe × PipeResult) :=
  match op with
  | .open_ side => some (p.open_ side this, .ok 0 [])
  | .close side => (p.close side this).map fun p ↦ (p, .ok 0 [])
  | .read side data size => p.read side this data size
  | .write side data bytes =>
    { p with mem := storeBytes p.mem data bytes }.write realloc side this data
      (BitVec.ofNat 64 bytes.length)

/-- One operation, on an end that has not been deleted. -/
def Pipe.step (realloc : Realloc) (p : Pipe) (op : PipeOp) : Option (Pipe × PipeResult) :=
  (p.ends op.side).bind (p.stepOn realloc op)

/-! ## The invariant -/

theorem Side.other_ne (side : Side) : side.other ≠ side := by
  cases side <;> decide

@[simp] theorem Side.other_other (side : Side) : side.other.other = side := by
  cases side <;> rfl

theorem Side.eq_or_eq_other (side side' : Side) : side' = side ∨ side' = side.other := by
  cases side <;> cases side' <;> decide

namespace Pipe

/-- The handle an end has on the stream. -/
def streamHandle : Handle Unit := { obj := some (), refcount := some 0 }

/-- The ends that are left keep the stream alive: each has its handle, the counter says how many
there are, and the stream was not deleted as long as there is one. -/
structure KeepsStream (p : Pipe) : Prop where
  handle : ∀ side, (p.ends side).isSome = true →
    p.handles.handles.lookup (.inEnd side) = some streamHandle
  both : (∀ side, (p.ends side).isSome = true) → p.handles.counters 0 = some 2
  one : ∀ side, (p.ends side).isSome = true → p.ends side.other = none →
    p.handles.counters 0 = some 1
  alive : ∀ side, (p.ends side).isSome = true → p.handles.deleted = []

/-- Each end knows whether the other is left. -/
def Linked (p : Pipe) : Prop :=
  ∀ side this, p.ends side = some this → (this.widowed = true ↔ p.ends side.other = none)

/-- **The invariant of a pipe** that holds the bytes `q`. -/
structure Fifo (callers : Set ℕ) (p : Pipe) (q : List Byte) : Prop where
  holds : p.stream.Holds callers p.mem q
  keeps : p.KeepsStream
  widowed : p.Linked

variable {realloc : Realloc} {callers : Set ℕ} {p : Pipe} {q : List Byte} {side : Side}
  {this : UnixPipe}

theorem exists_createHandles : ∃ h, createHandles = some h ∧
    (∀ side, h.handles.lookup (.inEnd side) = some streamHandle) ∧ h.counters 0 = some 2 ∧
    h.deleted = [] := by
  refine ⟨_, rfl, ?_, rfl, rfl⟩
  rintro (_ | _) <;> rfl

/-- `create_pipe` returns two ends nobody has opened yet. -/
theorem exists_createPipe (lock : U32) (buffer : ℕ) (mem : ByteMem) :
    ∃ p, createPipe lock buffer mem = some p ∧ p.dangling = [] ∧
      ∀ side, p.ends side = some { widowed := false, handleCount := 0, watching := [] } := by
  obtain ⟨hs, heq, -⟩ := exists_createHandles
  rw [createPipe, heq, Option.map_some]
  exact ⟨_, rfl, rfl, fun _ ↦ rfl⟩

theorem createPipe_fifo {buffer : ℕ} {mem : ByteMem} (hblock : ∀ i < 1024, buffer + i ∉ callers)
    (h : createPipe 0 buffer mem = some p) : p.Fifo callers [] := by
  obtain ⟨hs, heq, hlookup, hcount, hdel⟩ := exists_createHandles
  rw [createPipe, heq, Option.map_some, Option.some.injEq] at h
  subst h
  refine ⟨⟨rfl, rfl, (by decide : (0 : U64) < bufSizeDefault), ⟨10, by decide, rfl⟩, hblock⟩,
    ⟨?_, ?_, ?_, ?_⟩, ?_⟩
  · exact fun side _ ↦ hlookup side
  · exact fun _ ↦ hcount
  · exact fun side _ hnone ↦ by cases hnone
  · exact fun _ _ ↦ hdel
  · rintro side this ⟨⟩
    simp

/-- An end that is left reaches the stream. -/
theorem KeepsStream.streamOf (h : p.KeepsStream) (hthis : p.ends side = some this) :
    p.streamOf side = some p.stream := by
  have hsome : (p.ends side).isSome = true := by rw [hthis]; rfl
  simp [Pipe.streamOf, h.handle side hsome, streamHandle, h.alive side hsome]

theorem isSome_setEnd (hthis : p.ends side = some this) (this' : UnixPipe) (x : Side) :
    ((p.setEnd side (some this')).ends x).isSome = (p.ends x).isSome := by
  by_cases hx : x = side
  · rw [hx, setEnd_self, hthis]
    rfl
  · rw [setEnd_of_ne p hx]

theorem setEnd_eq_none (hthis : p.ends side = some this) (this' : UnixPipe) (x : Side) :
    (p.setEnd side (some this')).ends x = none ↔ p.ends x = none := by
  rw [← Option.not_isSome_iff_eq_none, isSome_setEnd hthis, Option.not_isSome_iff_eq_none]

theorem KeepsStream.setEnd (h : p.KeepsStream) (hthis : p.ends side = some this)
    (this' : UnixPipe) : (p.setEnd side (some this')).KeepsStream := by
  have hsome := isSome_setEnd hthis this'
  refine ⟨fun x hx ↦ h.handle x (hsome x ▸ hx), fun hall ↦ h.both fun x ↦ hsome x ▸ hall x,
    fun x hx hn ↦ h.one x (hsome x ▸ hx) ((setEnd_eq_none hthis this' _).mp hn),
    fun x hx ↦ h.alive x (hsome x ▸ hx)⟩

/-- Fields of an end other than `_widowed` may change. -/
theorem Linked.setEnd (h : p.Linked) (hthis : p.ends side = some this) {this' : UnixPipe}
    (hw : this'.widowed = this.widowed) : (p.setEnd side (some this')).Linked := by
  intro x t hx
  rw [setEnd_eq_none hthis]
  by_cases hxs : x = side
  · subst hxs
    rw [setEnd_self, Option.some.injEq] at hx
    rw [← hx, hw]
    exact h x this hthis
  · rw [setEnd_of_ne p hxs] at hx
    exact h x t hx

theorem Fifo.setEnd (h : p.Fifo callers q) (hthis : p.ends side = some this) {this' : UnixPipe}
    (hw : this'.widowed = this.widowed) : (p.setEnd side (some this')).Fifo callers q :=
  ⟨h.holds, h.keeps.setEnd hthis this', h.widowed.setEnd hthis hw⟩

/-! ### Closing -/

/-- The first of the two handles to go leaves the stream with the other. -/
theorem destroy_of_two {h : Handles StreamHandle Unit}
    (hl : ∀ side, h.handles.lookup (.inEnd side) = some streamHandle)
    (hc : h.counters 0 = some 2) (side : Side) :
    ∃ h', h.destroy (.inEnd side) = some h' ∧
      h'.handles.lookup (.inEnd side.other) = some streamHandle ∧ h'.counters 0 = some 1 ∧
      h'.deleted = h.deleted := by
  have hrel := Handles.release_of_ne_one (hl side) rfl hc (by decide)
  rw [Handles.destroy, hrel]
  refine ⟨_, rfl, ?_, by simp, rfl⟩
  show Finmap.lookup _ (h.handles.erase _) = _
  rw [Finmap.lookup_erase_ne fun heq ↦ Side.other_ne side (StreamHandle.inEnd.inj heq)]
  exact hl side.other

/-- The last one takes the stream along. -/
theorem destroy_of_one {h : Handles StreamHandle Unit}
    (hl : h.handles.lookup (.inEnd side) = some streamHandle) (hc : h.counters 0 = some 1) :
    ∃ h', h.destroy (.inEnd side) = some h' := by
  have hrel := Handles.release_of_one hl rfl hc
  rw [Handles.destroy, hrel]
  exact ⟨_, rfl⟩

/-- The last close of an end. -/
def IsFinal (this : UnixPipe) : Prop := this.handleCount = 1

instance (this : UnixPipe) : Decidable (IsFinal this) := inferInstanceAs (Decidable (_ = _))

theorem isFinal_iff : IsFinal this ↔ this.handleCount - 1 = 0 := by
  rw [IsFinal]
  constructor
  · intro h
    rw [h]
    decide
  · intro h
    bv_omega

/-- A pipe with one end left. -/
theorem fifo_of_one (hholds : p.stream.Holds callers p.mem q) (hgone : p.ends side = none)
    (hleft : p.ends side.other = some this) (hw : this.widowed = true)
    (hlookup : p.handles.handles.lookup (.inEnd side.other) = some streamHandle)
    (hcount : p.handles.counters 0 = some 1) (hdel : p.handles.deleted = []) :
    p.Fifo callers q := by
  have honly : ∀ x, (p.ends x).isSome = true → x = side.other := by
    intro x hx
    rcases Side.eq_or_eq_other side x with rfl | rfl
    · rw [hgone] at hx
      cases hx
    · rfl
  refine ⟨hholds, ⟨fun x hx ↦ honly x hx ▸ hlookup, fun hall ↦ ?_, fun _ _ _ ↦ hcount,
    fun _ _ ↦ hdel⟩, fun x t hx ↦ ?_⟩
  · exact absurd (honly side (hall side)) (Side.other_ne side).symm
  · obtain rfl := honly x (by rw [hx]; rfl)
    rw [hleft, Option.some.injEq] at hx
    rw [← hx, Side.other_other]
    simp [hw, hgone]

/-- A pipe with none. -/
theorem fifo_of_none (hholds : p.stream.Holds callers p.mem q) (hgone : ∀ x, p.ends x = none) :
    p.Fifo callers q := by
  have hnot : ∀ x, ¬ (p.ends x).isSome = true := fun x ↦ by simp [hgone x]
  refine ⟨hholds, ⟨fun x hx ↦ absurd hx (hnot x), fun hall ↦ absurd (hall .readEnd) (hnot _),
    fun x hx ↦ absurd hx (hnot x), fun x hx ↦ absurd hx (hnot x)⟩, fun x t hx ↦ ?_⟩
  rw [hgone] at hx
  cases hx

/-- **A close keeps what is in the pipe.**  The last one deletes the end and leaves the other one
widowed; if that is gone too, the store to its `_widowed` goes to freed memory. -/
theorem close_spec (h : p.Fifo callers q) (hthis : p.ends side = some this) :
    ∃ p', p.close side this = some p' ∧ p'.Fifo callers q ∧
      p'.ends side = (if IsFinal this then none
        else some { this with handleCount := this.handleCount - 1 }) ∧
      (p'.ends side.other).isSome = (p.ends side.other).isSome ∧
      p'.dangling = p.dangling ++
        if IsFinal this ∧ p.ends side.other = none then [side.other] else [] := by
  rw [close]
  by_cases hfin : IsFinal this
  · rw [if_pos (isFinal_iff.mp hfin)]
    cases hother : p.ends side.other with
    | some other =>
      have hall : ∀ x, (p.ends x).isSome = true := by
        intro x
        rcases Side.eq_or_eq_other side x with rfl | rfl
        · rw [hthis]
          rfl
        · rw [hother]
          rfl
      obtain ⟨hs, hdestroy, hlookup, hcount, hdel⟩ :=
        destroy_of_two (fun x ↦ h.keeps.handle x (hall x)) (h.keeps.both hall) side
      simp only [modifyOther, setEnd_other, hother, deleteEnd, setEnd_handles, hdestroy,
        Option.map_some]
      have hleft : (((p.setEnd side (some { this with handleCount := this.handleCount - 1 })).setEnd
          side.other (some { other with widowed := true })).setEnd side none).ends side.other =
            some { other with widowed := true } := by
        rw [setEnd_other, setEnd_self]
      refine ⟨_, rfl, fifo_of_one h.holds (setEnd_self ..) hleft rfl hlookup hcount
        (hdel.trans (h.keeps.alive side (hall side))), ?_, ?_, ?_⟩
      · rw [if_pos hfin]
        exact setEnd_self ..
      · exact (congrArg Option.isSome hleft).trans rfl
      · simp
    | none =>
      obtain ⟨hs, hdestroy⟩ := destroy_of_one (h.keeps.handle side (by rw [hthis]; rfl))
        (h.keeps.one side (by rw [hthis]; rfl) hother)
      simp only [modifyOther, setEnd_other, hother, deleteEnd, setEnd_handles, hdestroy,
        Option.map_some]
      have hgone : ∀ x, ({ (p.setEnd side (some { this with
          handleCount := this.handleCount - 1 })).setEnd side none with handles :=
            hs } : Pipe).ends x
            = none := by
        intro x
        rcases Side.eq_or_eq_other side x with rfl | rfl
        · exact setEnd_self ..
        · exact (setEnd_other ..).trans ((setEnd_other ..).trans hother)
      refine ⟨_, rfl, fifo_of_none h.holds hgone, ?_, ?_, ?_⟩
      · rw [if_pos hfin]
        exact hgone side
      · exact congrArg Option.isSome (hgone side.other)
      · simp [hfin, setEnd]
  · rw [if_neg fun hz ↦ hfin (isFinal_iff.mpr hz)]
    refine ⟨_, rfl, h.setEnd hthis rfl, ?_, ?_, ?_⟩
    · rw [setEnd_self, if_neg hfin]
    · rw [setEnd_other]
    · simp [hfin]

/-! ### Reading and writing -/

/-- **A read that does not have to wait** takes what it asks for from the front, as far as it is
there. -/
theorem read_spec (h : p.Fifo callers q) (hthis : p.ends .readEnd = some this) {data : ℕ}
    {size : U64} (hdata : ∀ i < size.toNat, data + i ∈ callers)
    (hready : q ≠ [] ∨ p.ends .writeEnd = none) :
    ∃ n p', p.read .readEnd this data size = some (p', .ok n (q.take n.toNat)) ∧
      n.toNat = min size.toNat q.length ∧ p'.Fifo callers (q.drop n.toNat) ∧
      p'.ends = p.ends ∧ p'.dangling = p.dangling := by
  have hawake : (!this.widowed && p.stream.empty) = false := by
    rcases hready with hq | hgone
    · have : ¬ p.stream.empty = true := fun he ↦ hq (h.holds.empty_iff.mp he)
      simp [this]
    · simp [(h.widowed _ _ hthis).mpr hgone]
  have hmin : (minU64 size p.stream.bufferPos).toNat = min size.toNat q.length := by
    rw [toNat_minU64, h.holds.length]
  obtain ⟨n, s', m', hread, hn, hbytes, hholds, -⟩ :=
    DataStream.read_spec h.holds data (minU64 size p.stream.bufferPos)
      fun i hi ↦ hdata i (by omega)
  refine ⟨n, { p with stream := s', mem := m' }, ?_, by omega, ⟨hholds, ?_, h.widowed⟩, rfl, rfl⟩
  · simp only [read, ne_eq, not_true_eq_false, if_false, h.keeps.streamOf hthis,
      Option.bind_eq_bind, Option.bind_some, hawake, Bool.false_eq_true, hread, hbytes]
  · exact ⟨h.keeps.handle, h.keeps.both, h.keeps.one, h.keeps.alive⟩

theorem bytesAt_storeBytes (m : ByteMem) (data : ℕ) (bytes : List Byte) :
    bytesAt (storeBytes m data bytes) data bytes.length = bytes := by
  refine List.ext_getElem (length_bytesAt ..) fun i hi hi' ↦ ?_
  rw [getElem_bytesAt, storeBytes, if_pos (Nat.le_add_right _ _), Nat.add_sub_cancel_left]
  simp [hi']

theorem storeBytes_of_not_mem {m : ByteMem} {data : ℕ} {bytes : List Byte}
    (hdata : ∀ i < bytes.length, data + i ∈ callers) {a : ℕ} (ha : a ∉ callers) :
    storeBytes m data bytes a = m a := by
  rw [storeBytes]
  split
  · rename_i hle
    rw [List.getD_eq_getElem?_getD, List.getElem?_eq_none, Option.getD_none]
    by_contra hlt
    refine ha ?_
    have := hdata (a - data) (by omega)
    rwa [show data + (a - data) = a by omega] at this
  · rfl

/-- **A write to an end that is not widowed** appends all of its bytes. -/
theorem write_spec (hr : Reallocates realloc callers) (h : p.Fifo callers q)
    (hthis : p.ends .writeEnd = some this) (hother : p.ends .readEnd ≠ none) {data : ℕ}
    {bytes : List Byte} (hdata : ∀ i < bytes.length, data + i ∈ callers)
    (htotal : q.length + bytes.length < 2 ^ 63) :
    ∃ p', ({ p with mem := storeBytes p.mem data bytes } : Pipe).write realloc .writeEnd this data
        (BitVec.ofNat 64 bytes.length) = some (p', .ok (BitVec.ofNat 64 bytes.length) []) ∧
      p'.Fifo callers (q ++ bytes) ∧ (∀ x, (p'.ends x).isSome = (p.ends x).isSome) ∧
      p'.ends .writeEnd = some this ∧ p'.dangling = p.dangling := by
  obtain ⟨other, hother⟩ := Option.ne_none_iff_exists'.mp hother
  have hlen : (BitVec.ofNat 64 bytes.length).toNat = bytes.length := by
    rw [BitVec.toNat_ofNat]
    exact Nat.mod_eq_of_lt (by omega)
  have hholds : p.stream.Holds callers (storeBytes p.mem data bytes) q :=
    h.holds.congr fun a ha ↦ storeBytes_of_not_mem hdata ha
  obtain ⟨s', m', hwrite, hholds', -⟩ := DataStream.write_spec hr hholds data
    (BitVec.ofNat 64 bytes.length) (fun i hi ↦ hdata i (hlen ▸ hi))
    (by rw [hlen, h.holds.length]; exact htotal)
  rw [hlen, bytesAt_storeBytes] at hholds'
  have hwidowed : ¬ this.widowed = true := fun hw ↦ by
    have := (h.widowed _ _ hthis).mp hw
    rw [show Side.writeEnd.other = .readEnd from rfl, hother] at this
    cases this
  have hstream : ({ p with mem := storeBytes p.mem data bytes } : Pipe).streamOf .writeEnd =
      some p.stream := h.keeps.streamOf hthis
  have h' : ({ p with stream := s', mem := m' } : Pipe).Fifo callers (q ++ bytes) :=
    ⟨hholds', ⟨h.keeps.handle, h.keeps.both, h.keeps.one, h.keeps.alive⟩, h.widowed⟩
  refine ⟨({ p with stream := s', mem := m' } : Pipe).setEnd .readEnd
    (some { other with watching := [] }), ?_, h'.setEnd hother rfl,
    isSome_setEnd (p := { p with stream := s', mem := m' }) hother _, ?_, rfl⟩
  · simp only [write, ne_eq, not_true_eq_false, if_false, if_neg hwidowed, hstream,
      Option.bind_eq_bind, Option.bind_some, hwrite, modifyOther, Side.other, hother]
  · rw [setEnd_of_ne _ (by decide)]
    exact hthis

/-! ## A pipe is a queue -/

/-- The pipes that calls on `p₀` from buffers in `callers` lead to, less than 2^63 bytes being
written, with what the writes have put in and the reads have returned.  Between calls the callers
use their memory as they like. -/
inductive Reaches (realloc : Realloc) (callers : Set ℕ) (p₀ : Pipe) :
    Pipe → List Byte → List Byte → Prop
  | start : Reaches realloc callers p₀ p₀ [] []
  | caller {p : Pipe} {w r : List Byte} (h : Reaches realloc callers p₀ p w r) (mem : ByteMem)
      (hmem : ∀ a ∉ callers, mem a = p.mem a) : Reaches realloc callers p₀ { p with mem := mem } w r
  | step {p p' : Pipe} {w r : List Byte} {op : PipeOp} {res : PipeResult}
      (h : Reaches realloc callers p₀ p w r) (hop : op.FromCallers callers)
      (htotal : w.length + op.bytes.length < 2 ^ 63) (hs : p.step realloc op = some (p', res)) :
      Reaches realloc callers p₀ p' (w ++ op.written res) (r ++ res.returned)

/-- **What a pipe is for**, with `w` written and `r` returned so far: what the reads returned is a
prefix of what was written, and the rest is pending.  A read that finds bytes or no writer returns
as many of the bytes pending as it asked for and there are, and zero when there are none; a write
while there is a reader takes all its bytes; and the write end can be closed at any time, which
changes neither what was written nor what was read. -/
structure Serves (realloc : Realloc) (callers : Set ℕ) (p₀ p : Pipe) (w r pending : List Byte) :
    Prop where
  split : w = r ++ pending
  reads : ∀ data size, p.ends .readEnd ≠ none → (∀ i < size.toNat, data + i ∈ callers) →
    (p.stream.empty = false ∨ p.ends .writeEnd = none) →
    ∃ n p', p.step realloc (.read .readEnd data size) = some (p', .ok n (pending.take n.toNat)) ∧
      n.toNat = min size.toNat pending.length ∧
      Reaches realloc callers p₀ p' w (r ++ pending.take n.toNat)
  writes : ∀ data bytes, p.ends .writeEnd ≠ none → p.ends .readEnd ≠ none →
    (∀ i < bytes.length, data + i ∈ callers) → w.length + bytes.length < 2 ^ 63 →
    ∃ p', p.step realloc (.write .writeEnd data bytes) =
        some (p', .ok (BitVec.ofNat 64 bytes.length) []) ∧
      Reaches realloc callers p₀ p' (w ++ bytes) r
  closes : p.ends .writeEnd ≠ none →
    ∃ p', p.step realloc (.close .writeEnd) = some (p', .ok 0 []) ∧
      Reaches realloc callers p₀ p' w r

/-- The pipe is a lossless queue of bytes after any run. -/
def IsQueue (realloc : Realloc) (callers : Set ℕ) (p₀ : Pipe) : Prop :=
  ∀ p w r, Reaches realloc callers p₀ p w r → ∃ pending, Serves realloc callers p₀ p w r pending

/-- Every operation keeps the invariant, and the queue is what was written and not yet read. -/
theorem step_fifo (hr : Reallocates realloc callers) (h : p.Fifo callers q) {op : PipeOp}
    (hop : op.FromCallers callers) (htotal : q.length + op.bytes.length < 2 ^ 63) {p' : Pipe}
    {res : PipeResult} (hs : p.step realloc op = some (p', res)) :
    ∃ q', p'.Fifo callers q' ∧ q ++ op.written res = res.returned ++ q' := by
  obtain ⟨this, hthis, hs⟩ := Option.bind_eq_some_iff.mp hs
  cases op with
  | open_ side =>
    obtain ⟨rfl, rfl⟩ : p.open_ side this = p' ∧ .ok 0 [] = res := by
      simpa [stepOn] using hs
    exact ⟨q, h.setEnd hthis rfl, List.append_nil q⟩
  | close side =>
    obtain ⟨p₁, hclose, hfifo, -⟩ := close_spec h (show p.ends side = some this from hthis)
    obtain ⟨rfl, rfl⟩ : p₁ = p' ∧ .ok 0 [] = res := by
      simpa only [stepOn, hclose, Option.map_some, Option.some.injEq, Prod.mk.injEq] using hs
    exact ⟨q, hfifo, List.append_nil q⟩
  | read side data size =>
    cases side with
    | writeEnd =>
      obtain ⟨rfl, rfl⟩ : p = p' ∧ .failed .espipe = res := by simpa [stepOn, read] using hs
      exact ⟨q, h, List.append_nil q⟩
    | readEnd =>
      by_cases hready : q ≠ [] ∨ p.ends .writeEnd = none
      · obtain ⟨n, p₁, hread, -, hfifo, -⟩ := read_spec h hthis hop hready
        obtain ⟨rfl, rfl⟩ : p₁ = p' ∧ .ok n (q.take n.toNat) = res := by
          simpa [stepOn, hread] using hs
        refine ⟨q.drop n.toNat, hfifo, ?_⟩
        show q ++ [] = q.take n.toNat ++ q.drop n.toNat
        rw [List.append_nil, List.take_append_drop]
      · -- The reader goes to sleep.
        have hsleeps : p.read .readEnd this data size = some (p, .sleeps) := by
          obtain ⟨hq, hleft⟩ := not_or.mp hready
          have hw : ¬ this.widowed = true := fun hw ↦ hleft ((h.widowed _ _ hthis).mp hw)
          have he : p.stream.empty = true := h.holds.empty_iff.mpr (not_not.mp hq)
          have hstream : p.streamOf .readEnd = some p.stream := h.keeps.streamOf hthis
          simp [read, hstream, hw, he]
        obtain ⟨rfl, rfl⟩ : p = p' ∧ .sleeps = res := by simpa [stepOn, hsleeps] using hs
        exact ⟨q, h, List.append_nil q⟩
  | write side data bytes =>
    have hstored : ({ p with mem := storeBytes p.mem data bytes } : Pipe).Fifo callers q :=
      ⟨h.holds.congr fun a ha ↦ storeBytes_of_not_mem hop ha,
        ⟨h.keeps.handle, h.keeps.both, h.keeps.one, h.keeps.alive⟩, h.widowed⟩
    cases side with
    | readEnd =>
      obtain ⟨rfl, rfl⟩ : { p with mem := storeBytes p.mem data bytes } = p' ∧
        .failed .espipe = res := by
        simpa [stepOn, write] using hs
      exact ⟨q, hstored, List.append_nil q⟩
    | writeEnd =>
      by_cases hw : this.widowed = true
      · obtain ⟨rfl, rfl⟩ : { p with mem := storeBytes p.mem data bytes } = p' ∧
          .failed .epipe = res := by
          simpa [stepOn, write, hw] using hs
        exact ⟨q, hstored, List.append_nil q⟩
      · have hother : p.ends .readEnd ≠ none := fun hn ↦ hw ((h.widowed _ _ hthis).mpr hn)
        obtain ⟨p₁, hwrite, hfifo, -⟩ := write_spec hr h hthis hother hop htotal
        obtain ⟨rfl, rfl⟩ : p₁ = p' ∧ .ok (BitVec.ofNat 64 bytes.length) [] = res := by
          simpa [stepOn, hwrite] using hs
        exact ⟨q ++ bytes, hfifo, rfl⟩

theorem length_written_le (op : PipeOp) (res : PipeResult) :
    (op.written res).length ≤ op.bytes.length := by
  cases res with
  | ok _ _ => exact le_rfl
  | failed _ => exact Nat.zero_le _
  | sleeps => exact Nat.zero_le _
  | spins => exact Nat.zero_le _

theorem Reaches.length_lt {p₀ : Pipe} {w r : List Byte} (h : Reaches realloc callers p₀ p w r) :
    w.length < 2 ^ 63 := by
  induction h with
  | start => simp
  | caller _ _ _ ih => exact ih
  | @step p p' w r op res _ hop htotal hs ih =>
    have := length_written_le op res
    rw [List.length_append]
    omega

theorem step_eq_stepOn (op : PipeOp) (hthis : p.ends op.side = some this) :
    p.step realloc op = p.stepOn realloc op this := by
  rw [step, hthis, Option.bind_some]

/-- What a pipe holds after any run is what was written and not yet read. -/
theorem Reaches.fifo (hr : Reallocates realloc callers) {p₀ : Pipe} (h₀ : p₀.Fifo callers [])
    {w r : List Byte} (h : Reaches realloc callers p₀ p w r) :
    ∃ q, p.Fifo callers q ∧ w = r ++ q := by
  induction h with
  | start => exact ⟨[], h₀, rfl⟩
  | caller _ mem hmem ih =>
    obtain ⟨q, hq, hw⟩ := ih
    exact ⟨q, ⟨hq.holds.congr hmem, ⟨hq.keeps.handle, hq.keeps.both, hq.keeps.one,
      hq.keeps.alive⟩, hq.widowed⟩, hw⟩
  | @step p p' w r op res _ hop htotal hs ih =>
    obtain ⟨q, hq, rfl⟩ := ih
    have hlen : q.length + op.bytes.length < 2 ^ 63 := by
      rw [List.length_append] at htotal
      omega
    obtain ⟨q', hq', heq⟩ := step_fifo hr hq hop hlen hs
    exact ⟨q', hq', by rw [List.append_assoc, heq, List.append_assoc]⟩

theorem Reaches.reads {p₀ : Pipe} {w r : List Byte} (h : Reaches realloc callers p₀ p w r)
    (hq : p.Fifo callers q) {data : ℕ} {size : U64} (hread : p.ends .readEnd ≠ none)
    (hdata : ∀ i < size.toNat, data + i ∈ callers)
    (hready : p.stream.empty = false ∨ p.ends .writeEnd = none) :
    ∃ n p', p.step realloc (.read .readEnd data size) = some (p', .ok n (q.take n.toNat)) ∧
      n.toNat = min size.toNat q.length ∧
      Reaches realloc callers p₀ p' w (r ++ q.take n.toNat) := by
  obtain ⟨this, hthis⟩ := Option.ne_none_iff_exists'.mp hread
  have hready' : q ≠ [] ∨ p.ends .writeEnd = none := by
    refine hready.imp_left fun he hnil ↦ ?_
    rw [hq.holds.empty_iff.mpr hnil] at he
    cases he
  obtain ⟨n, p', hcall, hn, -⟩ := read_spec hq hthis hdata hready'
  have hs : p.step realloc (.read .readEnd data size) = some (p', .ok n (q.take n.toNat)) :=
    (step_eq_stepOn (.read .readEnd data size) hthis).trans hcall
  have hstep := h.step (show PipeOp.FromCallers callers (.read .readEnd data size) from hdata)
    h.length_lt hs
  rw [show PipeOp.written _ (.ok n (q.take n.toNat)) = [] from rfl, List.append_nil] at hstep
  exact ⟨n, p', hs, hn, hstep⟩

theorem Reaches.writes (hr : Reallocates realloc callers) {p₀ : Pipe} {w r : List Byte}
    (h : Reaches realloc callers p₀ p w r) (hq : p.Fifo callers q) {data : ℕ} {bytes : List Byte}
    (hwrite : p.ends .writeEnd ≠ none) (hread : p.ends .readEnd ≠ none)
    (hdata : ∀ i < bytes.length, data + i ∈ callers) (hlen : q.length + bytes.length < 2 ^ 63)
    (htotal : w.length + bytes.length < 2 ^ 63) :
    ∃ p', p.step realloc (.write .writeEnd data bytes) =
        some (p', .ok (BitVec.ofNat 64 bytes.length) []) ∧
      Reaches realloc callers p₀ p' (w ++ bytes) r := by
  obtain ⟨this, hthis⟩ := Option.ne_none_iff_exists'.mp hwrite
  obtain ⟨p', hcall, -⟩ := write_spec hr hq hthis hread hdata hlen
  have hs : p.step realloc (.write .writeEnd data bytes) =
      some (p', .ok (BitVec.ofNat 64 bytes.length) []) :=
    (step_eq_stepOn (.write .writeEnd data bytes) hthis).trans hcall
  have hstep := h.step
    (show PipeOp.FromCallers callers (.write .writeEnd data bytes) from hdata) htotal hs
  rw [show PipeResult.returned (.ok _ []) = [] from rfl, List.append_nil] at hstep
  exact ⟨p', hs, hstep⟩

theorem Reaches.closes {p₀ : Pipe} {w r : List Byte} (h : Reaches realloc callers p₀ p w r)
    (hq : p.Fifo callers q) (hwrite : p.ends .writeEnd ≠ none) :
    ∃ p', p.step realloc (.close .writeEnd) = some (p', .ok 0 []) ∧
      Reaches realloc callers p₀ p' w r := by
  obtain ⟨this, hthis⟩ := Option.ne_none_iff_exists'.mp hwrite
  obtain ⟨p', hcall, -⟩ := close_spec hq hthis
  have hs : p.step realloc (.close .writeEnd) = some (p', .ok 0 []) := by
    rw [step_eq_stepOn (.close .writeEnd) hthis]
    simp only [stepOn, hcall, Option.map_some]
  have hstep := h.step (show PipeOp.FromCallers callers (.close .writeEnd) from trivial)
    h.length_lt hs
  rw [show PipeOp.written _ (.ok 0 []) = [] from rfl, List.append_nil,
    show PipeResult.returned (.ok 0 []) = [] from rfl, List.append_nil] at hstep
  exact ⟨p', hs, hstep⟩

theorem isQueue_of_fifo (hr : Reallocates realloc callers) {p₀ : Pipe} (h₀ : p₀.Fifo callers []) :
    p₀.IsQueue realloc callers := by
  intro p w r h
  obtain ⟨q, hq, rfl⟩ := h.fifo hr h₀
  refine ⟨q, rfl, fun data size hread hdata hready ↦ h.reads hq hread hdata hready,
    fun data bytes hwrite hread hdata htotal ↦ ?_, h.closes hq⟩
  have hlen : q.length + bytes.length < 2 ^ 63 := by
    rw [List.length_append] at htotal
    omega
  exact h.writes hr hq hwrite hread hdata hlen htotal

/-- With a lock word other than 0 in the stream the first write spins. -/
theorem write_spins (realloc : Realloc) {lock : U32} (hlock : lock ≠ 0) {buffer : ℕ}
    {mem : ByteMem} (h : createPipe lock buffer mem = some p) (data : ℕ) (bytes : List Byte) :
    ∃ p', p.step realloc (.write .writeEnd data bytes) = some (p', .spins) := by
  obtain ⟨hs, heq, hlookup, -, hdel⟩ := exists_createHandles
  rw [createPipe, heq, Option.map_some, Option.some.injEq] at h
  subst h
  have hlock : lock ≠ 0#32 := hlock
  simp [step, stepOn, write, streamOf, hlookup, hdel, streamHandle, DataStream.write, spin, hlock]

/-- **When a pipe is a lossless queue of bytes**: exactly if the memory `create_pipe` got for the
stream happened to hold 0 where `_stream_lock` lies. -/
theorem isQueue_iff (hr : Reallocates realloc callers) {lock : U32} {buffer : ℕ} {mem : ByteMem}
    (hblock : ∀ i < 1024, buffer + i ∉ callers) (h : createPipe lock buffer mem = some p) :
    p.IsQueue realloc callers ↔ lock = 0 := by
  refine ⟨fun hq ↦ by_contra fun hlock ↦ ?_, fun hlock ↦ ?_⟩
  · obtain ⟨pending, hserves⟩ := hq p [] [] .start
    obtain ⟨p₁, hcreate, -, hends⟩ := exists_createPipe lock buffer mem
    obtain rfl : p₁ = p := Option.some.inj (hcreate.symm.trans h)
    obtain ⟨p', hwrites, -⟩ := hserves.writes 0 [] (by simp [hends]) (by simp [hends]) (by simp)
      (by simp)
    obtain ⟨p'', hspins⟩ := write_spins realloc hlock h 0 []
    rw [hwrites] at hspins
    cases hspins
  · subst hlock
    exact isQueue_of_fifo hr (createPipe_fifo hblock h)

/-- A heap that moves a block to address 4096 when it grows. -/
def sampleRealloc : Realloc := fun p old _ m ↦ (4096, moved 4096 p old.toNat m)

theorem sampleRealloc_spec : Reallocates sampleRealloc {a | a < 4096} where
  keeps p old size m i hi _ := by
    simp only [sampleRealloc, moved]
    rw [if_pos (by omega), Nat.add_sub_cancel_left]
  apart p old size m i _ := by
    simp [sampleRealloc]
  frame p old size m a ha := by
    simp only [sampleRealloc, moved]
    rw [if_neg (by simp at ha; omega)]

/-- A pipe made in cleared memory takes three bytes and gives two of them back. -/
theorem isQueue_three_written :
    ∃ p₀ p₁ p₂, createPipe 0 4096 (fun _ ↦ 0) = some p₀ ∧ p₀.IsQueue sampleRealloc {a | a < 4096} ∧
      p₀.step sampleRealloc (.write .writeEnd 0 [1, 2, 3]) = some (p₁, .ok 3 []) ∧
      p₁.step sampleRealloc (.read .readEnd 8 2) = some (p₂, .ok 2 [1, 2]) := by
  obtain ⟨p₀, hcreate, -, hends⟩ := exists_createPipe 0 4096 fun _ ↦ 0
  have hqueue : p₀.IsQueue sampleRealloc {a | a < 4096} :=
    (isQueue_iff sampleRealloc_spec (by simp) hcreate).mpr rfl
  have hthree : ∀ i < [(1 : Byte), 2, 3].length, 0 + i ∈ {a : ℕ | a < 4096} := by
    intro i hi
    simp only [List.length_cons, List.length_nil, Set.mem_ofPred_eq] at hi ⊢
    omega
  have htwo : ∀ i < (2 : U64).toNat, 8 + i ∈ {a : ℕ | a < 4096} := by
    intro i hi
    have : i < 2 := hi
    simp only [Set.mem_ofPred_eq]
    omega
  obtain ⟨p₁, hwrite, h₁, hends₁, -⟩ := write_spec sampleRealloc_spec
    (createPipe_fifo (by simp) hcreate) (hends .writeEnd) (by simp [hends]) hthree (by simp)
  obtain ⟨this, hthis⟩ := Option.isSome_iff_exists.mp
    ((hends₁ .readEnd).trans (congrArg Option.isSome (hends .readEnd)))
  obtain ⟨n, p₂, hread, hn, -⟩ := read_spec h₁ hthis htwo (.inl (by simp))
  have hn : n = 2 := BitVec.eq_of_toNat_eq hn
  subst hn
  exact ⟨p₀, p₁, p₂, hcreate, hqueue,
    (step_eq_stepOn (.write .writeEnd 0 [1, 2, 3]) (hends .writeEnd)).trans hwrite,
    (step_eq_stepOn (.read .readEnd 8 2) hthis).trans hread⟩

/-- The word at `_stream_lock` is 1: the first byte written never arrives. -/
theorem not_isQueue_garbage :
    ∃ p₀ p₁, createPipe 1 4096 (fun _ ↦ 0) = some p₀ ∧
      p₀.step sampleRealloc (.write .writeEnd 0 [1]) = some (p₁, .spins) ∧
      ¬ p₀.IsQueue sampleRealloc {a | a < 4096} := by
  obtain ⟨p₀, hcreate, -, hends⟩ := exists_createPipe 1 4096 fun _ ↦ 0
  obtain ⟨p₁, hspins⟩ := write_spins sampleRealloc (by decide) hcreate 0 [1]
  refine ⟨p₀, p₁, hcreate, hspins, fun hqueue ↦ ?_⟩
  obtain ⟨pending, hserves⟩ := hqueue p₀ [] [] .start
  obtain ⟨p', hwrites, -⟩ := hserves.writes 0 [1] (by simp [hends]) (by simp [hends]) (by simp)
    (by simp)
  rw [hwrites] at hspins
  cases hspins

/-! ## Ends and their lifetimes -/

/-- The calls in order, with the pipe they leave. -/
def run (realloc : Realloc) (p : Pipe) : List PipeOp → Option Pipe
  | [] => some p
  | op :: ops => (p.step realloc op).bind fun r ↦ r.1.run realloc ops

/-- An operation that closes an end for good while the other one is gone already. -/
def Orphaned (p : Pipe) (op : PipeOp) : Prop :=
  ∃ side this, op = .close side ∧ p.ends side = some this ∧ IsFinal this ∧
    p.ends side.other = none

/-- What a close does to the ends, whatever becomes of the stream. -/
theorem close_linked (h : p.Linked) (hthis : p.ends side = some this) {p' : Pipe}
    (hc : p.close side this = some p') :
    p'.Linked ∧ (p'.dangling = [] ↔ p.dangling = [] ∧ ¬ p.Orphaned (.close side)) := by
  have horphaned : p.Orphaned (.close side) ↔ IsFinal this ∧ p.ends side.other = none := by
    constructor
    · rintro ⟨x, t, ⟨⟩, ht, hfin, hnone⟩
      rw [hthis, Option.some.injEq] at ht
      exact ⟨ht ▸ hfin, hnone⟩
    · rintro ⟨hfin, hnone⟩
      exact ⟨side, this, rfl, hthis, hfin, hnone⟩
  rw [horphaned]
  rw [close] at hc
  by_cases hfin : IsFinal this
  · rw [if_pos (isFinal_iff.mp hfin), deleteEnd] at hc
    obtain ⟨hs, -, rfl⟩ := Option.map_eq_some_iff.mp hc
    cases hother : p.ends side.other with
    | some other =>
      simp only [modifyOther, setEnd_other, hother]
      refine ⟨fun x t hx ↦ ?_, by simp⟩
      rcases Side.eq_or_eq_other side x with rfl | rfl
      · rw [setEnd_self] at hx
        cases hx
      · rw [setEnd_other, setEnd_self, Option.some.injEq] at hx
        rw [← hx, Side.other_other, setEnd_self]
        simp
    | none =>
      simp only [modifyOther, setEnd_other, hother]
      refine ⟨fun x t hx ↦ ?_, by simp [hfin]⟩
      rcases Side.eq_or_eq_other side x with rfl | rfl
      · rw [setEnd_self] at hx
        cases hx
      · rw [setEnd_other, show Pipe.ends _ _ = _ from setEnd_other .., hother] at hx
        cases hx
  · rw [if_neg fun hz ↦ hfin (isFinal_iff.mpr hz), Option.some.injEq] at hc
    subst hc
    exact ⟨h.setEnd hthis rfl, by simp [hfin]⟩

theorem read_ends {data : ℕ} {size : U64} {p' : Pipe} {res : PipeResult}
    (hs : p.read side this data size = some (p', res)) :
    p'.ends = p.ends ∧ p'.dangling = p.dangling := by
  rw [read] at hs
  split at hs
  · obtain ⟨rfl, -⟩ := Prod.ext_iff.mp (Option.some.inj hs)
    exact ⟨rfl, rfl⟩
  · obtain ⟨stream, -, hs⟩ := Option.bind_eq_some_iff.mp hs
    split at hs
    · obtain ⟨rfl, -⟩ := Prod.ext_iff.mp (Option.some.inj hs)
      exact ⟨rfl, rfl⟩
    · dsimp only at hs
      split at hs
      · obtain ⟨rfl, -⟩ := Prod.ext_iff.mp (Option.some.inj hs)
        exact ⟨rfl, rfl⟩
      · obtain ⟨rfl, -⟩ := Prod.ext_iff.mp (Option.some.inj hs)
        exact ⟨rfl, rfl⟩

/-- A write touches the other end only if that is left, since it checks `_widowed` first. -/
theorem write_linked (h : p.Linked) (hthis : p.ends side = some this) {data : ℕ} {size : U64}
    {p' : Pipe} {res : PipeResult} (hs : p.write realloc side this data size = some (p', res)) :
    p'.Linked ∧ p'.dangling = p.dangling := by
  rw [write] at hs
  split at hs
  · obtain ⟨rfl, -⟩ := Prod.ext_iff.mp (Option.some.inj hs)
    exact ⟨h, rfl⟩
  · split at hs
    · obtain ⟨rfl, -⟩ := Prod.ext_iff.mp (Option.some.inj hs)
      exact ⟨h, rfl⟩
    · rename_i hw
      obtain ⟨stream, -, hs⟩ := Option.bind_eq_some_iff.mp hs
      split at hs
      · obtain ⟨rfl, -⟩ := Prod.ext_iff.mp (Option.some.inj hs)
        exact ⟨h, rfl⟩
      · rename_i r _
        obtain ⟨rfl, -⟩ := Prod.ext_iff.mp (Option.some.inj hs)
        obtain ⟨other, hother⟩ : ∃ other, p.ends side.other = some other :=
          Option.ne_none_iff_exists'.mp fun hn ↦ hw ((h side this hthis).mpr hn)
        simp only [modifyOther, hother]
        exact ⟨Linked.setEnd (p := { p with stream := r.2.1, mem := r.2.2 }) h hother rfl, rfl⟩

theorem step_linked (h : p.Linked) {op : PipeOp} {p' : Pipe} {res : PipeResult}
    (hs : p.step realloc op = some (p', res)) :
    p'.Linked ∧ (p'.dangling = [] ↔ p.dangling = [] ∧ ¬ p.Orphaned op) := by
  obtain ⟨this, hthis, hs⟩ := Option.bind_eq_some_iff.mp hs
  cases op with
  | open_ side =>
    obtain ⟨rfl, rfl⟩ : p.open_ side this = p' ∧ .ok 0 [] = res := by simpa [stepOn] using hs
    exact ⟨h.setEnd hthis rfl, by simp [Orphaned, open_]⟩
  | close side =>
    simp only [stepOn] at hs
    obtain ⟨p₁, hclose, heq⟩ := Option.map_eq_some_iff.mp hs
    obtain ⟨rfl, -⟩ := Prod.ext_iff.mp heq
    exact close_linked h hthis hclose
  | read side data size =>
    obtain ⟨hends, hdangling⟩ := read_ends hs
    refine ⟨?_, by simp [hdangling, Orphaned]⟩
    rw [Linked, hends]
    exact h
  | write side data bytes =>
    obtain ⟨hlinked, hdangling⟩ :=
      write_linked (p := { p with mem := storeBytes p.mem data bytes }) h hthis hs
    exact ⟨hlinked, by simp [hdangling, Orphaned]⟩

theorem run_dangling_iff (h : p.Linked) {ops : List PipeOp} {p' : Pipe}
    (hrun : p.run realloc ops = some p') :
    p'.dangling = [] ↔ p.dangling = [] ∧ ∀ pre op post p₁, ops = pre ++ op :: post →
      p.run realloc pre = some p₁ → ¬ p₁.Orphaned op := by
  induction ops generalizing p with
  | nil =>
    obtain rfl : p = p' := by simpa [run] using hrun
    simp
  | cons op ops ih =>
    obtain ⟨⟨p₁, res⟩, hs, hrun⟩ := Option.bind_eq_some_iff.mp hrun
    obtain ⟨hlinked, hdangling⟩ := step_linked h hs
    rw [ih hlinked hrun, hdangling, and_assoc]
    refine and_congr_right fun _ ↦ ⟨?_, fun hall ↦ ⟨?_, ?_⟩⟩
    · rintro ⟨hop, hrest⟩ pre op' post p₂ heq hpre
      cases pre with
      | nil =>
        obtain ⟨rfl, rfl⟩ := List.cons.inj heq
        obtain rfl : p = p₂ := by simpa [run] using hpre
        exact hop
      | cons op₀ pre =>
        obtain ⟨rfl, rfl⟩ := List.cons.inj heq
        rw [run, hs, Option.bind_some] at hpre
        exact hrest pre op' post p₂ rfl hpre
    · exact hall [] op ops p rfl rfl
    · intro pre op' post p₂ heq hpre
      refine hall (op :: pre) op' post p₂ (by rw [heq]; rfl) ?_
      rw [run, hs, Option.bind_some]
      exact hpre

/-- **When no end is used after it was deleted.**  In a run from a new pipe no operation touches a
field of a deleted end exactly if no operation of the run closes the last handle of an end whose
other end has been deleted. -/
theorem no_dangling_use_iff {lock : U32} {buffer : ℕ} {mem : ByteMem} {p₀ : Pipe}
    (h₀ : createPipe lock buffer mem = some p₀) {ops : List PipeOp}
    (hrun : p₀.run realloc ops = some p) :
    p.dangling = [] ↔ ∀ pre op post p₁, ops = pre ++ op :: post → p₀.run realloc pre = some p₁ →
      ¬ p₁.Orphaned op := by
  obtain ⟨p₁, hcreate, hdangling, hends⟩ := exists_createPipe lock buffer mem
  obtain rfl : p₁ = p₀ := Option.some.inj (hcreate.symm.trans h₀)
  have hlinked : p₁.Linked := by
    intro side this hthis
    rw [hends, Option.some.injEq] at hthis
    rw [← hthis, hends]
    simp
  rw [run_dangling_iff hlinked hrun]
  simp only [hdangling, true_and]

/-- Opening both ends and closing one of them: the close does not find the other gone. -/
theorem one_end_closed :
    ∃ p₀ p, createPipe 0 4096 (fun _ ↦ 0) = some p₀ ∧
      p₀.run sampleRealloc [.open_ .readEnd, .open_ .writeEnd, .close .readEnd] = some p ∧
      p.dangling = [] ∧
      ∀ pre op post p₁, [.open_ .readEnd, .open_ .writeEnd, .close .readEnd] = pre ++ op :: post →
        p₀.run sampleRealloc pre = some p₁ → ¬ p₁.Orphaned op :=
  ⟨_, _, rfl, rfl, rfl, (no_dangling_use_iff rfl rfl).mp rfl⟩

/-- Opening both ends and closing both: the second close stores to the first end. -/
theorem both_ends_closed :
    ∃ p, (createPipe 0 4096 fun _ ↦ 0).bind (run sampleRealloc ·
        [.open_ .readEnd, .open_ .writeEnd, .close .readEnd, .close .writeEnd]) = some p ∧
      p.dangling = [.readEnd] :=
  ⟨_, rfl, rfl⟩

end Pipe

end Borrrdex
