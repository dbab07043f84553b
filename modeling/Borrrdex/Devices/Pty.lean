import Borrrdex.Kstd.CharBuffer

/-!
# Pseudoterminals

A pty has two buffers.  What the controller writes goes into `_worker`, which is a line editor in
canonical mode, and is echoed into `_controller`; what the worker writes goes into `_controller`.  A
write wakes the threads that are blocked in a read of the other side and the watchers of it.

A write comes with what it has read of the caller's memory: `taken` bytes have been put through the
buffer, and `reach` is one more than the last offset that has been read.  A call is one step, with
the locks held in it; blockers and watchers are numbers.
-/

set_option autoImplicit false

namespace Borrrdex

/-- `ECHO`. -/
def echoFlag : U32 := 0x0001

/-- `ICANON`. -/
def icanonFlag : U32 := 0x0010

/-- `'\e'`. -/
def escape : Byte := 0x1B

/-- `pty`.  `released` are the blockers that have been unblocked and `signalled` the watchers that
have been signalled, the last at the end. -/
structure Pty where
  lflag : U32
  worker : CharBuffer
  controller : CharBuffer
  workerBlocked : List ℕ
  controllerBlocked : List ℕ
  watchingWorker : List ℕ
  watchingController : List ℕ
  released : List ℕ
  signalled : List ℕ

/-- `device_type`. -/
inductive DeviceType
  | worker
  | controller
deriving DecidableEq

namespace Pty

def echo (p : Pty) : Bool := p.lflag &&& echoFlag ≠ 0

def isCanonical (p : Pty) : Bool := p.lflag &&& icanonFlag ≠ 0

/-- The loop that unblocks the first of the list as long as there is one: `unblock()` takes
it off. -/
def unblockAll (ready : Bool) : List ℕ → List ℕ → List ℕ × List ℕ
  | [], released => ([], released)
  | blocker :: blocked, released =>
    if ready then unblockAll ready blocked (released ++ [blocker]) else
      (blocker :: blocked, released)

/-- `pty_device::can_read()`. -/
def canRead : DeviceType → Pty → Bool
  | .controller, p => p.controller.hasData
  | .worker, p => if p.isCanonical then p.worker.hasLines else p.worker.hasData

/-- What the writer's loops test. -/
def workerReady (p : Pty) : Bool :=
  if p.isCanonical then p.worker.hasLines else p.worker.hasData

def unblockWorker (p : Pty) : Pty :=
  if 0 < p.workerBlocked.length then
    let (blocked, released) := unblockAll p.workerReady p.workerBlocked p.released
    { p with workerBlocked := blocked, released := released }
  else p

def signalWorker (p : Pty) : Pty :=
  if p.workerReady then
    { p with watchingWorker := [], signalled := p.signalled ++ p.watchingWorker }
  else p

/-- `"^["`, and what is behind it. -/
def caret (behind : ℕ → Byte) : ℕ → Byte
  | 0 => 0x5E
  | 1 => 0x5B
  | i + 2 => behind i

/-- `pty_device::ioctl(TIOCSATTR, ..)`, as far as the flags go. -/
def setAttr (lflag : U32) (p : Pty) : Pty :=
  let p := { p with lflag := lflag }
  { p with worker := { p.worker with ignoreBs := !p.isCanonical } }

/-- A new pty whose buffers are empty.  The source flushes nothing: `char_buffer` leaves
`_position`, `_lines` and `_lock` as `malloc`'s memory has them, and here these words are taken to
be 0. -/
def flushed : Pty where
  lflag := echoFlag ||| icanonFlag
  worker := ⟨0, 0, false, fun _ ↦ nul, 1024⟩
  controller := ⟨0, 0, true, fun _ ↦ nul, 1024⟩
  workerBlocked := []
  controllerBlocked := []
  watchingWorker := []
  watchingController := []
  released := []
  signalled := []

/-- What a write has done. -/
structure Written where
  pty : Pty
  ret : ℕ
  taken : ℕ
  reach : ℕ

/-- The echo on its way: the controller's buffer, and how far the caller's bytes have been read. -/
structure Echo where
  buffer : CharBuffer
  reach : ℕ

/-- The body of the loop that echoes. -/
def Echo.step (b behind : ℕ → Byte) (i : ℕ) (s : Echo) : Option Echo :=
  if b i = escape then do
    let t ← s.buffer.write (caret behind) 2
    return ⟨t.buffer, max s.reach (i + 1)⟩
  else do
    let t ← s.buffer.write (fun k ↦ b (i + k)) 1
    return ⟨t.buffer, max s.reach (max (i + 1) (i + t.taken))⟩

/-- A write in it that does not return ends it. -/
def Echo.body (b behind : ℕ → Byte) (i : U32) (s : Option Echo) : Option Echo ⊕ Option Echo :=
  match s.bind (Echo.step b behind i.toNat) with
  | some s => .inr (some s)
  | none => .inl none

/-- The loop. -/
def echoLoop (b behind : ℕ → Byte) (n : U64) (s : Echo) : Option Echo :=
  (forBelow n.toNat (Echo.body b behind) 0 (some s)).bind Prod.snd

/-- The part of `controller_write` that echoes, if so much has been written and taken. -/
def echoBack (b behind : ℕ → Byte) (n : U64) (written taken : ℕ) (p : Pty) : Option Echo :=
  if p.echo ∧ written ≠ 0 then echoLoop b behind n ⟨p.controller, taken⟩
  else some ⟨p.controller, taken⟩

/-- `pty::controller_write(b, n)`.  There is no result if it does not return. -/
def controllerWrite (b behind : ℕ → Byte) (n : U64) (p : Pty) : Option Written := do
  let s ← p.worker.write b n
  let p := { p with worker := s.buffer }.unblockWorker
  let e ← p.echoBack b behind n s.written s.taken
  return ⟨{ p with controller := e.buffer }.signalWorker, s.written, s.taken, e.reach⟩

/-- `pty::worker_write(b, n)`. -/
def workerWrite (b : ℕ → Byte) (n : U64) (p : Pty) : Option Written := do
  let s ← p.controller.write b n
  let ready := s.buffer.hasData
  let (blocked, released) := unblockAll ready p.controllerBlocked p.released
  return {
    pty := { p with
      controller := s.buffer
      controllerBlocked := blocked
      released := released
      watchingController := if ready then [] else p.watchingController
      signalled := if ready then p.signalled ++ p.watchingController else p.signalled }
    ret := s.written
    taken := s.taken
    reach := s.taken }

/-- What `pty_device::write` calls. -/
def writeFunc (behind : ℕ → Byte) : DeviceType → (ℕ → Byte) → U64 → Pty → Option Written
  | .worker, b, n, p => p.workerWrite b n
  | .controller, b, n, p => p.controllerWrite b behind n

/-- `pty_device::write` on its way.  `passed` are the offsets of the bytes that have been put
through a buffer, in order. -/
structure Transfer where
  pty : Pty
  written : ℕ
  passed : List ℕ
  reach : ℕ

/-- One call of it.  The pointer has been moved by what has been written, the size is always that of
the whole. -/
def Transfer.call (behind : ℕ → Byte) (t : DeviceType) (b : ℕ → Byte) (n : U64) (s : Transfer) :
    Option Transfer := do
  let r ← s.pty.writeFunc behind t (fun i ↦ b (s.written + i)) n
  return {
    pty := r.pty
    written := s.written + r.ret
    passed := s.passed ++ (List.range r.taken).map (s.written + ·)
    reach := max s.reach (s.written + r.reach) }

/-- The loop that keeps trying, for so many tests of its condition.  Neither function
returns an error. -/
def Transfer.retry (behind : ℕ → Byte) (t : DeviceType) (b : ℕ → Byte) (n : U64) :
    ℕ → Transfer → Option Transfer
  | 0, _ => none
  | tests + 1, s =>
    if s.written < n.toNat then (s.call behind t b n).bind (retry behind t b n tests) else some s

/-- `pty_device::write(offset, n, b)`, with at most so many tests of the loop's condition. -/
def deviceWrite (behind : ℕ → Byte) (tests : ℕ) (t : DeviceType) (b : ℕ → Byte) (n : U64)
    (p : Pty) :
    Option Transfer := do
  let s ← Transfer.call behind t b n ⟨p, 0, [], 0⟩
  if s.written = n.toNat then some s else s.retry behind t b n tests

/-! ## What a write leaves as it is -/

variable {p : Pty} {b behind : ℕ → Byte} {n : U64} {r : Written}

theorem unblockWorker_same (p : Pty) :
    p.unblockWorker.worker = p.worker ∧ p.unblockWorker.controller = p.controller ∧
      p.unblockWorker.lflag = p.lflag := by
  rw [unblockWorker]
  split <;> exact ⟨rfl, rfl, rfl⟩

theorem signalWorker_same (p : Pty) :
    p.signalWorker.worker = p.worker ∧ p.signalWorker.controller = p.controller ∧
      p.signalWorker.lflag = p.lflag ∧ p.signalWorker.released = p.released := by
  rw [signalWorker]
  split <;> exact ⟨rfl, rfl, rfl, rfl⟩

theorem echo_congr {p q : Pty} (h : p.lflag = q.lflag) : p.echo = q.echo := by
  rw [echo, echo, h]

theorem echoBack_congr {p q : Pty} (hlflag : p.lflag = q.lflag)
    (hcontroller : p.controller = q.controller)
    (written taken : ℕ) :
    p.echoBack b behind n written taken = q.echoBack b behind n written taken := by
  rw [echoBack, echoBack, echo_congr hlflag, hcontroller]

/-- The parts of a call of `controller_write`. -/
theorem controllerWrite_eq_some (hr : p.controllerWrite b behind n = some r) :
    ∃ s e, p.worker.write b n = some s ∧ p.echoBack b behind n s.written s.taken = some e ∧
      r.ret = s.written ∧ r.taken = s.taken ∧ r.reach = e.reach ∧ r.pty.worker = s.buffer ∧
      r.pty.controller = e.buffer ∧ r.pty.lflag = p.lflag ∧
      r.pty.released = ({ p with worker := s.buffer } : Pty).unblockWorker.released := by
  rw [controllerWrite, Option.bind_eq_bind, Option.bind_eq_some_iff] at hr
  obtain ⟨s, hs, hr⟩ := hr
  rw [Option.bind_eq_bind, Option.bind_eq_some_iff] at hr
  obtain ⟨e, he, hr⟩ := hr
  obtain ⟨hworker, hcontroller, hlflag⟩ := unblockWorker_same { p with worker := s.buffer }
  obtain ⟨hworker', hcontroller', hlflag', hreleased⟩ :=
    signalWorker_same { (unblockWorker { p with worker := s.buffer }) with controller := e.buffer }
  rw [echoBack_congr hlflag hcontroller] at he
  obtain rfl := Option.some.inj hr
  exact ⟨s, e, hs, he, rfl, rfl, rfl, hworker'.trans hworker, hcontroller', hlflag'.trans hlflag,
    hreleased⟩

end Pty

end Borrrdex
