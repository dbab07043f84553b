import Borrrdex.Sched.Thread
import Mathlib.Logic.Relation
import Mathlib.Tactic

/-!
# Waiting for a pipe

A thread that calls `unix_pipe::read` on a pipe with a writer and without data puts an `fs_blocker`
on the list of the read end and blocks.  Here the call is taken apart into its steps, and so are
`write` and `close` on the other end, so that they can interleave; the amount of data in the stream
is all that matters of it.  There is one reader and one writer, and the read end stays open.

`fs_blocker::unblock` is what would wake the reader.  A writer does not call it: `write` signals
the watchers of the read end, of which there never are any, and `close` sets `_widowed`.  So a
reader that has gone to sleep stays asleep (`step_blocked`), and is stuck as soon as something
arrives.  `Overtakes` is a step of the writer that a read in progress will not notice; without such
a step no reader gets stuck, and after one the reader does as soon as it gets on.
-/

set_option autoImplicit false

namespace Borrrdex

namespace PipeSleep

/-- Where the reader is in `unix_pipe::read`. -/
inductive ReaderPc
  /-- Not in a call. -/
  | idle
  /-- `!_widowed`. -/
  | testWidowed
  /-- `_stream->empty()`. -/
  | testEmpty
  /-- `fs_blocker bl(this, size)`. -/
  | construct
  /-- In `thread::block`, up to the test of `should_block()`. -/
  | prepare
  /-- `state = thread_state::blocked`. -/
  | mark
  /-- `scheduler::yield()`, with the state set. -/
  | asleep
  /-- The rest of `thread::block`, and the destructor of the blocker. -/
  | wake
  /-- `_stream->read(buffer, size)`. -/
  | take
deriving DecidableEq

/-- Where the writer is in `unix_pipe::write` or `unix_pipe::close`. -/
inductive WriterPc
  | idle
  /-- `_stream->write(buffer, size)`. -/
  | append (size : ℕ)
  /-- The loop on `_other_end->_watching`. -/
  | notify
  /-- `_handle_count--`. -/
  | drop
  /-- `_other_end->_widowed = true`. -/
  | widow
  /-- `delete this`. -/
  | delete
  /-- The end is deleted. -/
  | gone
deriving DecidableEq

/-- The pipe and the two threads.  `blocked` and `watching` are lists of the read end; the former
can hold only the reader's blocker, of which `hasThread`, `shouldBlock` and `interrupted` are the
fields. -/
structure State where
  pending : ℕ
  widowed : Bool
  blocked : Bool
  watching : List ℕ
  handleCount : U32
  hasThread : Bool
  shouldBlock : Bool
  interrupted : Bool
  thread : ThreadState
  size : ℕ
  reader : ReaderPc
  writer : WriterPc

/-- A new pipe whose write end has been opened `handles` times. -/
def initial (handles : U32) : State where
  pending := 0
  widowed := false
  blocked := false
  watching := []
  handleCount := handles
  hasThread := false
  shouldBlock := true
  interrupted := false
  thread := .running
  size := 0
  reader := .idle
  writer := .idle

/-- The reader gets on with its call.  A thread that is blocked does not run. -/
def readerStep (s : State) : Option State :=
  match s.reader with
  | .idle => none
  | .testWidowed => some { s with reader := if s.widowed then .take else .testEmpty }
  | .testEmpty => some { s with reader := if s.pending = 0 then .construct else .take }
  | .construct =>
    some { s with
      blocked := true, hasThread := false, shouldBlock := true, interrupted := false
      reader := .prepare }
  | .prepare => some { s with hasThread := true, reader := if s.shouldBlock then .mark else .wake }
  | .mark => some { s with thread := .blocked, reader := .asleep }
  | .asleep => if s.thread = .blocked then none else some { s with reader := .wake }
  | .wake => some { s with blocked := false, reader := if s.interrupted then .idle else .take }
  | .take => some { s with pending := s.pending - min s.size s.pending, reader := .idle }

/-- The writer gets on with its call.  The write end is not widowed. -/
def writerStep (s : State) : Option State :=
  match s.writer with
  | .idle => none
  | .append size => some { s with pending := s.pending + size, writer := .notify }
  | .notify => some { s with watching := [], writer := .idle }
  | .drop =>
    some { s with
      handleCount := s.handleCount - 1
      writer := if s.handleCount - 1 = 0 then .widow else .idle }
  | .widow => some { s with widowed := true, writer := .delete }
  | .delete => some { s with writer := .gone }
  | .gone => none

/-- What can happen next: a thread starts a call, or gets on with one. -/
inductive Move
  | read (size : ℕ)
  | reader
  | write (size : ℕ)
  | close
  | writer

/-- One step of either thread. -/
def step (s : State) : Move → Option State
  | .read size =>
    if s.reader = .idle then some { s with size := size, reader := .testWidowed } else none
  | .reader => readerStep s
  | .write size => if s.writer = .idle then some { s with writer := .append size } else none
  | .close => if s.writer = .idle then some { s with writer := .drop } else none
  | .writer => writerStep s

/-- Finishing what the writer has begun makes the reader run again. -/
def WillWake (s : State) : Prop :=
  ∃ s', Relation.ReflTransGen (fun a b ↦ writerStep a = some b) s s' ∧ s'.thread ≠ .blocked

/-- **A stuck reader**: it is blocked though there is data or the write end has been closed, and
nothing in progress is going to unblock it. -/
def Stuck (s : State) : Prop :=
  s.thread = .blocked ∧ (0 < s.pending ∨ s.widowed = true) ∧ ¬ WillWake s

/-- The reader has found the pipe empty and is going to sleep, or asleep. -/
def ReaderPc.committed : ReaderPc → Bool
  | .construct | .prepare | .mark | .asleep => true
  | _ => false

/-- A step of the writer that a read in progress is not going to notice: data arrives behind its
test for data, or `_widowed` is set behind its test for that, with no data there. -/
def Overtakes (s : State) : Move → Prop
  | .writer =>
    match s.writer with
    | .append size => 0 < size ∧ s.reader.committed = true
    | .widow => s.reader.committed = true ∨ (s.reader = .testEmpty ∧ s.pending = 0)
    | _ => False
  | _ => False

/-- The states of runs all of whose steps satisfy `P`. -/
inductive Reaches (P : State → Move → Prop) : State → Prop
  | initial (handles : U32) : Reaches P (initial handles)
  | step {s s' : State} {mv : Move} (h : Reaches P s) (hP : P s mv) (hs : step s mv = some s') :
      Reaches P s'

/-! ## Nobody wakes the reader -/

section

variable {s s' : State} {mv : Move} {P : State → Move → Prop}

theorem writerStep_thread (h : writerStep s = some s') : s'.thread = s.thread := by
  unfold writerStep at h
  split at h <;> cases h <;> rfl

theorem writerStep_reader (h : writerStep s = some s') : s'.reader = s.reader := by
  unfold writerStep at h
  split at h <;> cases h <;> rfl

theorem not_willWake (h : s.thread = .blocked) : ¬ WillWake s := by
  rintro ⟨s', hrun, hwoken⟩
  have hsame : s'.thread = s.thread := by
    clear hwoken
    induction hrun with
    | refl => rfl
    | tail _ hstep ih => exact (writerStep_thread hstep).trans ih
  exact hwoken (hsame.trans h)

/-- So that to be stuck is to be blocked with something to read or no writer. -/
theorem stuck_iff : Stuck s ↔ s.thread = .blocked ∧ (0 < s.pending ∨ s.widowed = true) :=
  ⟨fun h ↦ ⟨h.1, h.2.1⟩, fun h ↦ ⟨h.1, h.2, not_willWake h.1⟩⟩

/-- What the steps other than the reader's leave alone. -/
theorem step_of_ne_reader (hs : step s mv = some s') (hmv : mv ≠ .reader) :
    s'.thread = s.thread ∧ s'.shouldBlock = s.shouldBlock ∧
      (s'.reader = s.reader ∨ s.reader = .idle ∧ s'.reader = .testWidowed) := by
  cases mv with
  | reader => exact absurd rfl hmv
  | writer =>
    refine ⟨writerStep_thread hs, ?_, .inl (writerStep_reader hs)⟩
    simp only [step, writerStep] at hs
    split at hs <;> cases hs <;> rfl
  | read size =>
    obtain ⟨hidle, ⟨⟩⟩ := Option.ite_none_right_eq_some.mp hs
    exact ⟨rfl, rfl, .inr ⟨hidle, rfl⟩⟩
  | write size =>
    obtain ⟨-, ⟨⟩⟩ := Option.ite_none_right_eq_some.mp hs
    exact ⟨rfl, rfl, .inl rfl⟩
  | close =>
    obtain ⟨-, ⟨⟩⟩ := Option.ite_none_right_eq_some.mp hs
    exact ⟨rfl, rfl, .inl rfl⟩

/-- What holds in every run: the reader's thread is blocked exactly while it is asleep, and its
blocker is to block until then. -/
structure Awaits (s : State) : Prop where
  blocked_iff : s.thread = .blocked ↔ s.reader = .asleep
  shouldBlock : s.reader = .prepare → s.shouldBlock = true

theorem readerStep_awaits (h : Awaits s) (hs : readerStep s = some s') : Awaits s' := by
  obtain ⟨hb, hsb⟩ := h
  unfold readerStep at hs
  cases hpc : s.reader with
  | idle => simp [hpc] at hs
  | asleep =>
    rw [hpc] at hs hb
    -- the thread is blocked here, and does not get on
    simp [hb.mpr rfl] at hs
  | _ =>
    rw [hpc] at hs hb
    cases hs
    constructor <;> grind

theorem step_awaits (h : Awaits s) (hs : step s mv = some s') : Awaits s' := by
  by_cases hmv : mv = .reader
  · subst hmv
    exact readerStep_awaits h hs
  · obtain ⟨hthread, hblock, hreader⟩ := step_of_ne_reader hs hmv
    obtain ⟨hb, hsb⟩ := h
    constructor <;> grind

theorem Reaches.awaits (h : Reaches P s) : Awaits s := by
  induction h with
  | initial handles => constructor <;> simp [PipeSleep.initial]
  | step _ _ hs ih => exact step_awaits ih hs

/-! ## Runs in which nothing is overtaken -/

/-- What a read in progress has found is still so. -/
structure Current (s : State) : Prop where
  committed : s.reader.committed = true → s.pending = 0 ∧ s.widowed = false
  testEmpty : s.reader = .testEmpty → s.widowed = true → 0 < s.pending

theorem readerStep_current (h : Current s) (hs : readerStep s = some s') : Current s' := by
  obtain ⟨hc, ht⟩ := h
  unfold readerStep at hs
  cases hpc : s.reader with
  | idle => simp [hpc] at hs
  | asleep =>
    simp only [hpc, Option.ite_none_left_eq_some, Option.some.injEq] at hs
    obtain ⟨-, rfl⟩ := hs
    constructor <;> simp [ReaderPc.committed]
  | _ =>
    rw [hpc] at hs hc
    cases hs
    constructor <;> grind [ReaderPc.committed]

theorem writerStep_current (h : Current s) (hmv : ¬ Overtakes s .writer)
    (hs : writerStep s = some s') : Current s' := by
  obtain ⟨hc, ht⟩ := h
  unfold writerStep at hs
  cases hpc : s.writer with
  | append size =>
    simp only [Overtakes, hpc, not_and] at hmv
    rw [hpc] at hs
    cases hs
    constructor <;> grind
  | widow =>
    simp only [Overtakes, hpc, not_or, not_and] at hmv
    rw [hpc] at hs
    cases hs
    constructor <;> grind
  | idle | gone => simp [hpc] at hs
  | _ =>
    rw [hpc] at hs
    cases hs
    exact ⟨hc, ht⟩

theorem step_current (h : Current s) (hmv : ¬ Overtakes s mv) (hs : step s mv = some s') :
    Current s' := by
  cases mv with
  | reader => exact readerStep_current h hs
  | writer => exact writerStep_current h hmv hs
  | read size =>
    obtain ⟨-, ⟨⟩⟩ := Option.ite_none_right_eq_some.mp hs
    constructor <;> simp [ReaderPc.committed]
  | write size =>
    obtain ⟨-, ⟨⟩⟩ := Option.ite_none_right_eq_some.mp hs
    exact ⟨h.committed, h.testEmpty⟩
  | close =>
    obtain ⟨-, ⟨⟩⟩ := Option.ite_none_right_eq_some.mp hs
    exact ⟨h.committed, h.testEmpty⟩

theorem Reaches.current (h : Reaches (fun s mv ↦ ¬ Overtakes s mv) s) : Current s := by
  induction h with
  | initial handles => constructor <;> simp [PipeSleep.initial, ReaderPc.committed]
  | step _ hmv hs ih => exact step_current ih hmv hs

theorem Reaches.not_stuck (h : Reaches (fun s mv ↦ ¬ Overtakes s mv) s) : ¬ Stuck s := by
  rw [stuck_iff]
  rintro ⟨hblocked, hready⟩
  have hasleep := h.awaits.blocked_iff.mp hblocked
  obtain ⟨hpending, hwidowed⟩ := h.current.committed (by rw [hasleep]; rfl)
  grind

/-! ## A reader that has been overtaken -/

/-- The reader gets on while the writer waits. -/
def Proceeds : State → State → Prop := Relation.ReflTransGen fun a b ↦ readerStep a = some b

/-- The reader falls asleep with the pipe as it is. -/
def FallsAsleep (s : State) : Prop :=
  ∃ s', Proceeds s s' ∧ s'.thread = .blocked ∧ s'.pending = s.pending ∧ s'.widowed = s.widowed

theorem FallsAsleep.head (hs : readerStep s = some s') (hpending : s'.pending = s.pending)
    (hwidowed : s'.widowed = s.widowed) (h : FallsAsleep s') : FallsAsleep s := by
  obtain ⟨t, hrun, hblocked, hp, hw⟩ := h
  exact ⟨t, .head hs hrun, hblocked, hp.trans hpending, hw.trans hwidowed⟩

theorem fallsAsleep_of_mark (h : s.reader = .mark) : FallsAsleep s :=
  ⟨{ s with thread := .blocked, reader := .asleep }, .single (by rw [readerStep, h]), rfl, rfl, rfl⟩

theorem fallsAsleep_of_prepare (h : s.reader = .prepare) (hs : s.shouldBlock = true) :
    FallsAsleep s := by
  have hstep : readerStep s = some { s with hasThread := true, reader := .mark } := by
    rw [readerStep, h]
    simp [hs]
  exact .head hstep rfl rfl (fallsAsleep_of_mark rfl)

theorem fallsAsleep_of_construct (h : s.reader = .construct) : FallsAsleep s := by
  refine .head (by rw [readerStep, h]) ?_ ?_ (fallsAsleep_of_prepare ?_ ?_) <;> rfl

theorem fallsAsleep_of_testEmpty (h : s.reader = .testEmpty) (hs : s.pending = 0) :
    FallsAsleep s := by
  have hstep : readerStep s = some { s with reader := .construct } := by
    rw [readerStep, h]
    simp [hs]
  exact .head hstep rfl rfl (fallsAsleep_of_construct rfl)

theorem Awaits.fallsAsleep (h : Awaits s) (hc : s.reader.committed = true) : FallsAsleep s := by
  cases hpc : s.reader with
  | construct => exact fallsAsleep_of_construct hpc
  | prepare => exact fallsAsleep_of_prepare hpc (h.shouldBlock hpc)
  | mark => exact fallsAsleep_of_mark hpc
  | asleep => exact ⟨s, .refl, h.blocked_iff.mpr hpc, rfl, rfl⟩
  | _ => simp [hpc, ReaderPc.committed] at hc

/-- After a step that overtakes it, the reader gets stuck if it is the next to run. -/
theorem Awaits.stuck_of_overtakes (h : Awaits s) (hmv : Overtakes s mv)
    (hs : step s mv = some s') : ∃ t, Proceeds s' t ∧ Stuck t := by
  have ha := step_awaits h hs
  suffices hsleep : FallsAsleep s' ∧ (0 < s'.pending ∨ s'.widowed = true) by
    obtain ⟨⟨t, hrun, hblocked, hpending, hwidowed⟩, hready⟩ := hsleep
    exact ⟨t, hrun, stuck_iff.mpr ⟨hblocked, hpending ▸ hwidowed ▸ hready⟩⟩
  cases mv with
  | writer =>
    have hreader : s'.reader = s.reader := writerStep_reader hs
    simp only [step, writerStep] at hs
    cases hpc : s.writer with
    | append size =>
      simp only [Overtakes, hpc] at hmv
      rw [hpc] at hs
      cases hs
      exact ⟨ha.fallsAsleep (hreader ▸ hmv.2), .inl (Nat.add_pos_right _ hmv.1)⟩
    | widow =>
      simp only [Overtakes, hpc] at hmv
      rw [hpc] at hs
      cases hs
      obtain hc | ⟨hempty, hpending⟩ := hmv
      · exact ⟨ha.fallsAsleep (hreader ▸ hc), .inr rfl⟩
      · exact ⟨fallsAsleep_of_testEmpty hempty hpending, .inr rfl⟩
    | _ => simp [Overtakes, hpc] at hmv
  | _ => exact absurd hmv id

/-- **No reader gets stuck** in a run in which no step of the writer overtakes a read, and after
the first one that does, in any run, the reader gets stuck if it is let run. -/
theorem no_stuck_reader_iff (s : State) :
    (Reaches (fun s mv ↦ ¬ Overtakes s mv) s → ¬ Stuck s) ∧
      ∀ s' mv, Reaches (fun _ _ ↦ True) s → step s mv = some s' → Overtakes s mv →
        ∃ t, Proceeds s' t ∧ Stuck t :=
  ⟨fun h ↦ h.not_stuck, fun _ _ h hs hmv ↦ h.awaits.stuck_of_overtakes hmv hs⟩

theorem Reaches.foldlM (h : Reaches (fun _ _ ↦ True) s) {mvs : List Move}
    (hs : mvs.foldlM PipeSleep.step s = some s') : Reaches (fun _ _ ↦ True) s' := by
  induction mvs generalizing s with
  | nil =>
    cases hs
    exact h
  | cons mv mvs ih =>
    obtain ⟨t, hmv, ht⟩ := Option.bind_eq_some_iff.mp hs
    exact ih (h.step trivial hmv) ht

/-- A reader asleep on a new pipe. -/
def sleeping : State :=
  { initial 1 with
    blocked := true, hasThread := true, thread := .blocked, size := 1, reader := .asleep }

/-- One byte is written: before the read it is noticed, and after the reader has gone to sleep it
is not. -/
theorem one_byte_written :
    ¬ Stuck { initial 1 with pending := 1, writer := .notify } ∧
      ∃ t, Proceeds { sleeping with pending := 1, writer := .notify } t ∧ Stuck t := by
  constructor
  · have hcall : Reaches (fun s mv ↦ ¬ Overtakes s mv) { initial 1 with writer := .append 1 } :=
      .step (.initial 1) (show ¬ Overtakes _ (.write 1) from id) rfl
    have hwrite : ¬ Overtakes { initial 1 with writer := .append 1 } .writer := by
      simp [Overtakes, initial, ReaderPc.committed]
    exact (no_stuck_reader_iff _).1 (hcall.step hwrite rfl)
  · have hcall : Reaches (fun _ _ ↦ True) { sleeping with writer := .append 1 } :=
      (Reaches.initial 1).foldlM
        (show [.read 1, .reader, .reader, .reader, .reader, .reader, .write 1].foldlM step _ = _
          from rfl)
    exact (no_stuck_reader_iff _).2 _ .writer hcall rfl ⟨Nat.one_pos, rfl⟩

/-- A reader finds a new pipe empty and goes to sleep, and then a byte is written. -/
theorem reader_sleeps_on : ¬ ∀ s, Reaches (fun _ _ ↦ True) s → ¬ Stuck s := by
  intro h
  have hrun : Reaches (fun _ _ ↦ True) { sleeping with pending := 1 } :=
    (Reaches.initial 1).foldlM
      (show [.read 1, .reader, .reader, .reader, .reader, .reader, .write 1, .writer,
        .writer].foldlM step _ = _ from rfl)
  exact h _ hrun (stuck_iff.mpr ⟨rfl, .inl Nat.one_pos⟩)

end

end PipeSleep

end Borrrdex
