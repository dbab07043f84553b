import Borrrdex.Lib.Runs
import Borrrdex.Sched.Thread
import Mathlib.Tactic

/-!
# Blocking and unblocking

`thread::block`, with and without a timeout, on one CPU and `thread_blocker::unblock` on another are
taken apart into their steps, and so is the callback of the timer event, which wakes the thread when
its time is over.  `step` lets any of them get on.

Both calls hold the lock of the blocker while they look at it, but `block` marks its thread as
blocked after it has released the lock.  In between, `unblock` can mark it as running, which is
lost: the thread goes to sleep after it has been woken, and unless it has a timeout, for ever.
`Misses` is that step of `unblock`, and `no_lost_wakeUp` says that nothing else goes wrong.
-/

set_option autoImplicit false

namespace Borrrdex

namespace Block

/-- Where the thread is in `thread::block`. -/
inductive BlockPc
  /-- `nblocker->get_lock()`. -/
  | getLock
  /-- `set_thread(this)`. -/
  | setThread
  /-- `should_block()`. -/
  | shouldBlock
  /-- Return at once, the lock being released. -/
  | leave
  /-- `blocked_timeout = false`. -/
  | clearTimeout
  /-- `blocker = nblocker`. -/
  | setBlocker
  /-- `timer::timer_event evt(timeout, timer_cb, this)`. -/
  | construct
  /-- The lock is released. -/
  | unlock
  /-- `state = thread_state::blocked`. -/
  | mark
  /-- `!blocked_timeout`. -/
  | testTimeout
  /-- `scheduler::yield()`. -/
  | asleep
  /-- `state = thread_state::running`. -/
  | unmark
  /-- `thread_blocker::interrupt`, up to its lock. -/
  | interrupt
  /-- `lock l(_lock)`. -/
  | interruptLock
  /-- `_thread->unblock()`. -/
  | interruptThread
  /-- The lock is released. -/
  | interruptUnlock
  /-- `blocker = nullptr`. -/
  | clearBlocker
  /-- The destructor of the timer event. -/
  | destroy (result : Bool)
  | returned (result : Bool)
deriving DecidableEq

/-- Where the other CPU is in `thread_blocker::unblock`. -/
inductive UnblockPc
  /-- `_should_block = false`. -/
  | clearShouldBlock
  /-- `_removed = true`. -/
  | setRemoved
  /-- `lock l(_lock)`. -/
  | getLock
  /-- `if(_thread)`. -/
  | testThread
  /-- `time_slice = time_slice_default`. -/
  | slice
  /-- `if(state != thread_state::zombie) state = thread_state::running`. -/
  | run
  /-- The lock is released. -/
  | unlock
  | completed
deriving DecidableEq

/-- Where the timer event is. -/
inductive TimerPc
  /-- There is none. -/
  | none
  /-- In the queue. -/
  | pending
  /-- `blocked_timeout` is set, and `thread::unblock` is next. -/
  | slice
  | run
  /-- Its callback has returned, or it is out of the queue. -/
  | finished
deriving DecidableEq

/-- The thread, its blocker, and what is running. -/
structure State where
  timed : Bool
  lock : Bool
  hasThread : Bool
  shouldBlock : Bool
  interrupted : Bool
  removed : Bool
  thread : ThreadState
  timeSlice : U32
  timeSliceDefault : U32
  hasBlocker : Bool
  blockedTimeout : Bool
  timer : TimerPc
  block : BlockPc
  unblock : UnblockPc

/-- A running thread is about to block, and another one to unblock it. -/
structure Initial (s : State) : Prop where
  lock : s.lock = false
  hasThread : s.hasThread = false
  shouldBlock : s.shouldBlock = true
  interrupted : s.interrupted = false
  thread : s.thread = .running
  timer : s.timer = .none
  block : s.block = .getLock
  unblock : s.unblock = .clearShouldBlock

/-- The state of a thread after `thread::unblock`. -/
def unblocked (state : ThreadState) : ThreadState := if state = .zombie then .zombie else .running

/-- `thread::block(nblocker)`. -/
def blockStep (s : State) : Option State :=
  match s.block with
  | .getLock => if s.lock then none else some { s with lock := true, block := .setThread }
  | .setThread => some { s with hasThread := true, block := .shouldBlock }
  | .shouldBlock => some { s with block := if s.shouldBlock then .setBlocker else .leave }
  | .leave => some { s with lock := false, block := .returned true }
  | .setBlocker => some { s with hasBlocker := true, block := .unlock }
  | .unlock => some { s with lock := false, block := .mark }
  | .mark => some { s with thread := .blocked, block := .asleep }
  | .asleep => if s.thread = .blocked then none else some { s with block := .clearBlocker }
  | .clearBlocker => some { s with hasBlocker := false, block := .returned !s.interrupted }
  | _ => none

/-- `thread::block(nblocker, timeout)`.  At the full second (`atOnce`) the constructor of the timer
event calls back itself. -/
def blockTimeoutStep (atOnce : Bool) (s : State) : Option State :=
  match s.block with
  | .getLock => if s.lock then none else some { s with lock := true, block := .shouldBlock }
  | .shouldBlock => some { s with block := if s.shouldBlock then .clearTimeout else .leave }
  | .leave => some { s with lock := false, block := .returned true }
  | .clearTimeout => some { s with blockedTimeout := false, block := .setBlocker }
  | .setBlocker => some { s with hasBlocker := true, block := .setThread }
  | .setThread => some { s with hasThread := true, block := .construct }
  | .construct =>
    if atOnce then
      some { s with
        blockedTimeout := true, timeSlice := s.timeSliceDefault, thread := unblocked s.thread
        timer := .finished, block := .unlock }
    else some { s with timer := .pending, block := .unlock }
  | .unlock => some { s with lock := false, block := .mark }
  | .mark => some { s with thread := .blocked, block := .testTimeout }
  | .testTimeout => some { s with block := if s.blockedTimeout then .unmark else .asleep }
  | .asleep => if s.thread = .blocked then none else some { s with block := .clearBlocker }
  | .unmark => some { s with thread := .running, block := .interrupt }
  | .interrupt => some { s with interrupted := true, shouldBlock := false, block := .interruptLock }
  | .interruptLock => if s.lock then none else some
      { s with lock := true, block := .interruptThread }
  | .interruptThread =>
    if s.hasThread then
      some { s with
        timeSlice := s.timeSliceDefault, thread := unblocked s.thread, block := .interruptUnlock }
    else some { s with block := .interruptUnlock }
  | .interruptUnlock => some { s with lock := false, block := .clearBlocker }
  | .clearBlocker =>
    some { s with hasBlocker := false, block := .destroy (!s.blockedTimeout && !s.interrupted) }
  | .destroy result =>
    -- the destructor waits for a callback that has begun
    if s.timer = .slice ∨ s.timer = .run then none
    else some { s with timer := .finished, block := .returned result }
  | .returned _ => none

/-- `thread_blocker::unblock`. -/
def unblockStep (s : State) : Option State :=
  match s.unblock with
  | .clearShouldBlock => some { s with shouldBlock := false, unblock := .setRemoved }
  | .setRemoved => some { s with removed := true, unblock := .getLock }
  | .getLock => if s.lock then none else some { s with lock := true, unblock := .testThread }
  | .testThread => some { s with unblock := if s.hasThread then .slice else .unlock }
  | .slice => some { s with timeSlice := s.timeSliceDefault, unblock := .run }
  | .run => some { s with thread := unblocked s.thread, unblock := .unlock }
  | .unlock => some { s with lock := false, unblock := .completed }
  | .completed => none

/-- The timer event is dispatched. -/
def timerStep (s : State) : Option State :=
  match s.timer with
  | .pending => some { s with blockedTimeout := true, timer := .slice }
  | .slice => some { s with timeSlice := s.timeSliceDefault, timer := .run }
  | .run => some { s with thread := unblocked s.thread, timer := .finished }
  | .none | .finished => none

/-- Who gets on. -/
inductive Move
  | block (atOnce : Bool)
  | unblock
  | timer
deriving DecidableEq

/-- One step of one of them. -/
def step (s : State) : Move → Option State
  | .block atOnce => if s.timed then blockTimeoutStep atOnce s else blockStep s
  | .unblock => unblockStep s
  | .timer => timerStep s

/-- The thread and the other CPU. -/
def system : Machine State Move := ⟨Initial, step⟩

/-- A step of `unblock` that the thread does not notice: it is marked as running just before it
marks itself as blocked. -/
def Misses (s : State) (move : Move) : Prop :=
  move = .unblock ∧ s.unblock = .run ∧ s.block = .mark ∧
    ¬ (s.timed = true ∧ s.blockedTimeout = true)

/-- What the thread and its timer do by themselves. -/
def Proceeds (s s' : State) : Prop := ∃ move ≠ Move.unblock, step s move = some s'

/-- **The thread has been woken**: once `unblock` has completed, it is not asleep and blocked, and
it returns from `block` by itself. -/
def Woken (s : State) : Prop :=
  s.unblock = .completed → ¬ (s.block = .asleep ∧ s.thread = .blocked) ∧
    ∃ s' result, Relation.ReflTransGen Proceeds s s' ∧ s'.block = .returned result

/-! ## What holds in every run -/

/-- The thread holds the lock of the blocker. -/
def BlockPc.holds : BlockPc → Bool
  | .setThread | .shouldBlock | .leave | .clearTimeout | .setBlocker | .construct | .unlock
  | .interruptThread | .interruptUnlock => true
  | _ => false

/-- The thread has found that it is to block, and holds the lock still. -/
def BlockPc.committed (timed : Bool) : BlockPc → Bool
  | .clearTimeout | .setBlocker | .construct | .unlock => true
  | .setThread => timed
  | _ => false

/-- The blocker knows its thread. -/
def BlockPc.linked (timed : Bool) : BlockPc → Bool
  | .unlock | .mark | .testTimeout | .asleep => true
  | .shouldBlock | .setBlocker => !timed
  | .construct => timed
  | _ => false

/-- What only `block` with a timeout does. -/
def BlockPc.timedOnly : BlockPc → Bool
  | .clearTimeout | .construct | .testTimeout | .unmark | .interrupt | .interruptLock
  | .interruptThread | .interruptUnlock | .destroy _ => true
  | _ => false

def UnblockPc.holds : UnblockPc → Bool
  | .testThread | .slice | .run | .unlock => true
  | _ => false

/-- Before the lock. -/
def UnblockPc.outside : UnblockPc → Bool
  | .clearShouldBlock | .setRemoved | .getLock => true
  | _ => false

/-- Before the thread is marked as running. -/
def UnblockPc.early : UnblockPc → Bool
  | .clearShouldBlock | .setRemoved | .getLock | .testThread | .slice | .run => true
  | _ => false

structure Inv (s : State) : Prop where
  lock : s.lock = (s.block.holds || s.unblock.holds)
  one : ¬ (s.block.holds = true ∧ s.unblock.holds = true)
  told : s.unblock ≠ .clearShouldBlock → s.shouldBlock = false
  committed : s.block.committed s.timed = true → s.unblock.outside = true
  linked : s.block.linked s.timed = true → s.hasThread = true
  thread : s.thread = .running ∨ s.thread = .blocked
  timed : s.block.timedOnly = true → s.timed = true
  mark : s.block = .mark → s.unblock.early = true ∨ s.timed = true ∧ s.blockedTimeout = true
  testTimeout : s.block = .testTimeout → s.thread = .blocked →
    s.unblock.early = true ∨ s.blockedTimeout = true
  asleep : s.block = .asleep → s.thread = .blocked → s.unblock.early = true

variable {s s' : State} {move : Move}

theorem Initial.inv (h : Initial s) : Inv s := by
  obtain ⟨hlock, hthread, hshould, hinter, hstate, htimer, hblock, hunblock⟩ := h
  constructor <;> simp [hlock, hshould, hstate, hblock, hunblock, BlockPc.holds, UnblockPc.holds,
    BlockPc.committed, BlockPc.linked, BlockPc.timedOnly]

theorem UnblockPc.early_of_outside {pc : UnblockPc} (h : pc.outside = true) :
    pc.early = true := by
  cases pc <;> first | rfl | cases h

theorem BlockPc.holds_of_committed {pc : BlockPc} {timed : Bool}
    (h : pc.committed timed = true) : pc.holds = true := by
  cases pc <;> first | rfl | cases h

/-- What a step of the thread can do. -/
structure Moves (s s' : State) : Prop where
  unblock : s'.unblock = s.unblock
  timed : s'.timed = s.timed
  lock : (s'.lock = s.lock ∧ s'.block.holds = s.block.holds) ∨
    (s.lock = false ∧ s'.lock = true ∧ s'.block.holds = true) ∨
    (s.block.holds = true ∧ s'.lock = false ∧ s'.block.holds = false)
  shouldBlock : s'.shouldBlock = s.shouldBlock ∨ s'.shouldBlock = false
  committed : s'.block.committed s.timed = true →
    s.block.committed s.timed = true ∨ s.shouldBlock = true
  linked : s'.block.linked s.timed = true →
    s'.hasThread = true ∨ (s.block.linked s.timed = true ∧ s'.hasThread = s.hasThread)
  thread : s'.thread = s.thread ∨ s'.thread = .running ∨ s'.thread = .blocked ∨
    s'.thread = unblocked s.thread
  timedOnly : s'.block.timedOnly = true → s.timed = true
  mark : s'.block = .mark → s.block.committed s.timed = true
  testTimeout : s'.block = .testTimeout → s.block = .mark ∧ s'.blockedTimeout = s.blockedTimeout
  asleep : s'.block = .asleep → (s.block = .mark ∧ s.timed = false) ∨
    (s.block = .testTimeout ∧ s.blockedTimeout = false ∧ s'.thread = s.thread)

theorem blockStep_moves (htimed : s.timed = false) (hs : blockStep s = some s') : Moves s s' := by
  unfold blockStep at hs
  split at hs
  case h_1 hpc | h_8 hpc =>
    obtain ⟨hfree, ⟨⟩⟩ := Option.ite_none_left_eq_some.mp hs
    constructor <;> simp_all [BlockPc.holds, BlockPc.committed, BlockPc.linked, BlockPc.timedOnly]
  case h_10 => cases hs
  case h_3 hpc =>
    cases hs
    cases hshould : s.shouldBlock <;> constructor <;>
      simp [hpc, htimed, hshould, BlockPc.holds, BlockPc.committed, BlockPc.linked,
        BlockPc.timedOnly]
  all_goals
    next hpc =>
      cases hs
      constructor <;>
        simp [hpc, htimed, BlockPc.holds, BlockPc.committed, BlockPc.linked, BlockPc.timedOnly]

theorem unblocked_cases (h : s.thread = .running ∨ s.thread = .blocked) :
    unblocked s.thread = .running := by
  obtain h | h := h <;> rw [h] <;> rfl

theorem blockTimeoutStep_moves (htimed : s.timed = true) {atOnce : Bool}
    (hs : blockTimeoutStep atOnce s = some s') : Moves s s' := by
  unfold blockTimeoutStep at hs
  split at hs
  case h_1 hpc | h_11 hpc | h_14 hpc | h_18 hpc =>
    obtain ⟨hfree, ⟨⟩⟩ := Option.ite_none_left_eq_some.mp hs
    constructor <;> simp_all [BlockPc.holds, BlockPc.committed, BlockPc.linked, BlockPc.timedOnly]
  case h_19 => cases hs
  case h_7 hpc | h_15 hpc =>
    split at hs <;> cases hs <;> constructor <;>
      simp [hpc, htimed, BlockPc.holds, BlockPc.committed, BlockPc.linked, BlockPc.timedOnly]
  case h_2 hpc =>
    cases hs
    cases hshould : s.shouldBlock <;> constructor <;>
      simp [hpc, htimed, hshould, BlockPc.holds, BlockPc.committed, BlockPc.linked,
        BlockPc.timedOnly]
  case h_10 hpc =>
    cases hs
    cases hover : s.blockedTimeout <;> constructor <;>
      simp [hpc, htimed, hover, BlockPc.holds, BlockPc.committed, BlockPc.linked, BlockPc.timedOnly]
  all_goals
    next hpc =>
      cases hs
      constructor <;>
        simp [hpc, htimed, BlockPc.holds, BlockPc.committed, BlockPc.linked, BlockPc.timedOnly]

/-- **A step of the thread.** -/
theorem Inv.moves (h : Inv s) (hm : Moves s s') : Inv s' := by
  have hlocks : s'.lock = (s'.block.holds || s.unblock.holds) ∧
      ¬ (s'.block.holds = true ∧ s.unblock.holds = true) := by
    obtain ⟨hlock, hholds⟩ | ⟨hfree, hlock, hholds⟩ | ⟨hheld, hlock, hholds⟩ := hm.lock
    · rw [hlock, hholds]
      exact ⟨h.lock, h.one⟩
    · obtain ⟨-, hother⟩ := Bool.or_eq_false_iff.mp (h.lock.symm.trans hfree)
      simp [hlock, hholds, hother]
    · have hother : s.unblock.holds = false := Bool.eq_false_iff.mpr fun hu ↦ h.one ⟨hheld, hu⟩
      simp [hlock, hholds, hother]
  exact {
    lock := by
      rw [hm.unblock]
      exact hlocks.1
    one := by
      rw [hm.unblock]
      exact hlocks.2
    told := fun hne ↦ by
      rw [hm.unblock] at hne
      exact hm.shouldBlock.elim (fun hsame ↦ hsame.trans (h.told hne)) id
    committed := fun hc ↦ by
      rw [hm.timed] at hc
      rw [hm.unblock]
      obtain hc | hshould := hm.committed hc
      · exact h.committed hc
      · -- `unblock` has not begun
        have hpc : s.unblock = .clearShouldBlock := by
          by_contra hne
          cases hshould.symm.trans (h.told hne)
        rw [hpc, UnblockPc.outside]
    linked := fun hl ↦ by
      rw [hm.timed] at hl
      obtain hthread | ⟨hl, hsame⟩ := hm.linked hl
      · exact hthread
      · exact hsame.trans (h.linked hl)
    thread := by
      obtain hsame | hrunning | hblocked | hunblocked := hm.thread
      · rw [hsame]
        exact h.thread
      · exact .inl hrunning
      · exact .inr hblocked
      · exact .inl (hunblocked.trans (unblocked_cases h.thread))
    timed := fun hpc ↦ hm.timed.trans (hm.timedOnly hpc)
    mark := fun hpc ↦ by
      rw [hm.unblock]
      exact .inl (UnblockPc.early_of_outside (h.committed (hm.mark hpc)))
    testTimeout := fun hpc _ ↦ by
      obtain ⟨hmark, hsame⟩ := hm.testTimeout hpc
      rw [hsame, hm.unblock]
      exact (h.mark hmark).imp_right And.right
    asleep := fun hpc hblocked ↦ by
      rw [hm.unblock]
      obtain ⟨hmark, htimed⟩ | ⟨htest, hover, hsame⟩ := hm.asleep hpc
      · refine (h.mark hmark).resolve_right fun htimeout ↦ ?_
        cases htimed.symm.trans htimeout.1
      · refine (h.testTimeout htest (hsame ▸ hblocked)).resolve_right fun htimeout ↦ ?_
        cases hover.symm.trans htimeout }

theorem BlockPc.not_committed {pc : BlockPc} {timed : Bool} (h : pc.holds = false) :
    pc.committed timed ≠ true := fun hc ↦ by
  cases h.symm.trans (BlockPc.holds_of_committed hc)

/-- A step of `unblock` that leaves it on the same side of everything. -/
theorem Inv.unblock_goto (h : Inv s) {pc : UnblockPc} {shouldBlock removed : Bool} {slice : U32}
    (hshould : shouldBlock = false) (hholds : pc.holds = s.unblock.holds)
    (houtside : s.unblock.outside = true → pc.outside = true)
    (hearly : s.unblock.early = true → pc.early = true) :
    Inv { s with
      shouldBlock := shouldBlock, removed := removed, timeSlice := slice, unblock := pc } where
  lock := by
    rw [hholds]
    exact h.lock
  one := by
    rw [hholds]
    exact h.one
  told _ := hshould
  committed hc := houtside (h.committed hc)
  linked := h.linked
  thread := h.thread
  timed := h.timed
  mark hpc := (h.mark hpc).imp_left hearly
  testTimeout hpc hblocked := (h.testTimeout hpc hblocked).imp_left hearly
  asleep hpc hblocked := hearly (h.asleep hpc hblocked)

theorem unblockStep_inv (h : Inv s) (hmiss : ¬ Misses s .unblock) (hs : unblockStep s = some s') :
    Inv s' := by
  unfold unblockStep at hs
  split at hs
  · next hpc =>
    cases hs
    exact h.unblock_goto rfl (by rw [hpc]; rfl) (fun _ ↦ rfl) (fun _ ↦ rfl)
  · next hpc =>
    cases hs
    exact h.unblock_goto (h.told (by rw [hpc]; decide)) (by rw [hpc]; rfl) (fun _ ↦ rfl)
      (fun _ ↦ rfl)
  · next hpc =>
    obtain ⟨hfree, ⟨⟩⟩ := Option.ite_none_left_eq_some.mp hs
    have hown : s.block.holds = false := by
      have hlock := h.lock.symm.trans (Bool.eq_false_iff.mpr hfree)
      exact (Bool.or_eq_false_iff.mp hlock).1
    exact {
      lock := by
        dsimp only
        rw [hown]
        rfl
      one := fun hboth ↦ by cases hown.symm.trans hboth.1
      told := fun _ ↦ h.told (by rw [hpc]; decide)
      committed := fun hc ↦ absurd hc (BlockPc.not_committed hown)
      linked := h.linked
      thread := h.thread
      timed := h.timed
      mark := fun _ ↦ .inl rfl
      testTimeout := fun _ _ ↦ .inl rfl
      asleep := fun _ _ ↦ rfl }
  · next hpc =>
    cases hs
    have htold := h.told (by rw [hpc]; decide)
    by_cases hthread : s.hasThread = true
    · rw [if_pos hthread]
      exact h.unblock_goto htold (by rw [hpc]; rfl) (fun hout ↦ by rw [hpc] at hout; cases hout)
        (fun _ ↦ rfl)
    · -- the thread has not come to its blocker
      have hunlinked : s.block.linked s.timed ≠ true := fun hl ↦ hthread (h.linked hl)
      rw [if_neg hthread]
      refine { h with
        lock := ?_, one := ?_, told := fun _ ↦ htold, committed := fun hc ↦ ?_, mark := fun hb ↦ ?_
        testTimeout := fun hb _ ↦ ?_, asleep := fun hb _ ↦ ?_ }
      · have hlock := h.lock
        rwa [hpc] at hlock
      · have hone := h.one
        rwa [hpc] at hone
      · have hout := h.committed hc
        rw [hpc] at hout
        cases hout
      all_goals
        refine absurd ?_ hunlinked
        change s.block = _ at hb
        rw [hb]
        rfl
  · next hpc =>
    cases hs
    exact h.unblock_goto (h.told (by rw [hpc]; decide)) (by rw [hpc]; rfl)
      (fun hout ↦ by rw [hpc] at hout; cases hout) (fun _ ↦ rfl)
  · next hpc =>
    cases hs
    have hrunning : unblocked s.thread = .running := unblocked_cases h.thread
    have hne : unblocked s.thread ≠ .blocked := fun hblocked ↦ by cases hrunning.symm.trans hblocked
    refine { h with
      lock := ?_, one := ?_, told := fun _ ↦ h.told (by rw [hpc]; decide), committed := fun hc ↦ ?_
      thread := .inl hrunning, mark := fun hb ↦ ?_
      testTimeout := fun _ hblocked ↦ absurd hblocked hne
      asleep := fun _ hblocked ↦ absurd hblocked hne }
    · have hlock := h.lock
      rwa [hpc] at hlock
    · have hone := h.one
      rwa [hpc] at hone
    · have hout := h.committed hc
      rw [hpc] at hout
      cases hout
    · exact .inr (by_contra fun hno ↦ hmiss ⟨rfl, hpc, hb, hno⟩)
  · next hpc =>
    cases hs
    have hown : s.block.holds = false := Bool.eq_false_iff.mpr fun hb ↦ h.one ⟨hb, by rw [hpc]; rfl⟩
    refine { h with
      lock := ?_, one := ?_, told := fun _ ↦ h.told (by rw [hpc]; decide), committed := fun hc ↦ ?_
      mark := fun hb ↦ ?_, testTimeout := fun hb hblocked ↦ ?_, asleep := fun hb hblocked ↦ ?_ }
    · dsimp only
      rw [hown]
      rfl
    · exact fun hboth ↦ by cases hown.symm.trans hboth.1
    · exact absurd hc (BlockPc.not_committed hown)
    · have hmark := h.mark hb
      rw [hpc] at hmark
      exact .inr (hmark.resolve_left Bool.false_ne_true)
    · have htest := h.testTimeout hb hblocked
      rw [hpc] at htest
      exact .inr (htest.resolve_left Bool.false_ne_true)
    · have hearly := h.asleep hb hblocked
      rw [hpc] at hearly
      cases hearly
  · cases hs

theorem timerStep_inv (h : Inv s) (hs : timerStep s = some s') : Inv s' := by
  have hrunning : unblocked s.thread = .running := unblocked_cases h.thread
  have hne : unblocked s.thread ≠ .blocked := fun hblocked ↦ by cases hrunning.symm.trans hblocked
  unfold timerStep at hs
  split at hs
  · cases hs
    exact { h with
      mark := fun hb ↦ (h.mark hb).imp_right fun ht ↦ ⟨ht.1, rfl⟩
      testTimeout := fun hb _ ↦ .inr rfl }
  · cases hs
    exact { h with }
  · cases hs
    exact { h with
      thread := .inl hrunning
      testTimeout := fun _ hblocked ↦ absurd hblocked hne
      asleep := fun _ hblocked ↦ absurd hblocked hne }
  all_goals cases hs

/-- **One step.** -/
theorem step_inv (h : Inv s) (hmiss : ¬ Misses s move) (hs : step s move = some s') : Inv s' := by
  cases move with
  | block atOnce =>
    simp only [step] at hs
    split at hs
    · next htimed => exact h.moves (blockTimeoutStep_moves htimed hs)
    · next htimed => exact h.moves (blockStep_moves (Bool.eq_false_iff.mpr htimed) hs)
  | unblock => exact unblockStep_inv h hmiss hs
  | timer => exact timerStep_inv h hs

theorem inv_of_reaches (h : system.Reaches (fun s move ↦ ¬ Misses s move) s) : Inv s :=
  h.invariant (fun _ ↦ Initial.inv) fun _ _ _ hinv hmiss hs ↦ step_inv hinv hmiss hs

/-! ## The way back from `block` -/

/-- How far it is to the end of the call, if `unblock` has completed. -/
def BlockPc.rank : BlockPc → ℕ
  | .getLock => 12
  | .setThread => 11
  | .shouldBlock => 10
  | .mark => 9
  | .testTimeout => 8
  | .asleep | .unmark => 7
  | .interrupt => 6
  | .interruptLock => 5
  | .interruptThread => 4
  | .interruptUnlock => 3
  | .clearBlocker => 2
  | .leave | .destroy _ => 1
  | _ => 0

/-- How long the destructor of the timer event has to wait. -/
def TimerPc.rank : TimerPc → ℕ
  | .slice => 2
  | .run => 1
  | _ => 0

def rank (s : State) : ℕ := s.block.rank + s.timer.rank

theorem blockStep_proceeds (h : Inv s) (htimed : s.timed = false) (hdone : s.unblock = .completed)
    (hreturned : ∀ result, s.block ≠ .returned result) :
    ∃ s', blockStep s = some s' ∧ s'.unblock = .completed ∧ rank s' < rank s := by
  have hlock := h.lock
  have htold := h.told
  have hcommitted := h.committed
  have htimedOnly := h.timed
  have hmark := h.mark
  have hasleep := h.asleep
  unfold blockStep rank
  cases hpc : s.block <;>
    grind [BlockPc.holds, UnblockPc.holds, BlockPc.committed, UnblockPc.outside, UnblockPc.early,
      BlockPc.timedOnly, BlockPc.rank]

theorem blockTimeoutStep_proceeds (h : Inv s) (htimed : s.timed = true)
    (hdone : s.unblock = .completed) (hreturned : ∀ result, s.block ≠ .returned result)
    (htimer : s.timer.rank = 0) :
    ∃ s', blockTimeoutStep false s = some s' ∧ s'.unblock = .completed ∧ rank s' < rank s := by
  have hlock := h.lock
  have htold := h.told
  have hcommitted := h.committed
  have hmark := h.mark
  have htest := h.testTimeout
  have hasleep := h.asleep
  unfold blockTimeoutStep rank
  cases hpc : s.block <;>
    grind [BlockPc.holds, UnblockPc.holds, BlockPc.committed, UnblockPc.outside, UnblockPc.early,
      BlockPc.rank, TimerPc.rank]

theorem timerStep_proceeds (h : s.timer.rank ≠ 0) :
    ∃ s', timerStep s = some s' ∧ s'.unblock = s.unblock ∧ rank s' < rank s := by
  unfold timerStep rank
  cases hpc : s.timer <;> simp_all [TimerPc.rank]

/-- The thread gets on, after a callback that has begun. -/
theorem Inv.proceeds (h : Inv s) (hdone : s.unblock = .completed)
    (hreturned : ∀ result, s.block ≠ .returned result) :
    ∃ s', Proceeds s s' ∧ (Inv s' ∧ s'.unblock = .completed) ∧ rank s' < rank s := by
  have hmiss : ∀ move ≠ Move.unblock, ¬ Misses s move := fun move hmove hm ↦ hmove hm.1
  by_cases htimer : s.timer.rank = 0
  · have hblock : ∃ s', step s (.block false) = some s' ∧ s'.unblock = .completed ∧
        rank s' < rank s := by
      rw [step]
      split
      · next htimed => exact blockTimeoutStep_proceeds h htimed hdone hreturned htimer
      · next htimed => exact blockStep_proceeds h (Bool.eq_false_iff.mpr htimed) hdone hreturned
    obtain ⟨s', hs, hdone', hlt⟩ := hblock
    exact ⟨s', ⟨.block false, Move.noConfusion, hs⟩,
      ⟨step_inv h (hmiss _ Move.noConfusion) hs, hdone'⟩, hlt⟩
  · obtain ⟨s', hs, hsame, hlt⟩ := timerStep_proceeds htimer
    exact ⟨s', ⟨.timer, Move.noConfusion, hs⟩,
      ⟨timerStep_inv h hs, hsame.trans hdone⟩, hlt⟩

theorem Inv.woken (h : Inv s) : Woken s := by
  intro hdone
  constructor
  · rintro ⟨hasleep, hblocked⟩
    have hearly := h.asleep hasleep hblocked
    rw [hdone] at hearly
    cases hearly
  · have hstep : ∀ s, Inv s ∧ s.unblock = .completed → ¬ (∃ result, s.block = .returned result) →
        ∃ s', Proceeds s s' ∧ (Inv s' ∧ s'.unblock = .completed) ∧ rank s' < rank s :=
      fun s hinv hgoal ↦ hinv.1.proceeds hinv.2 fun result hr ↦ hgoal ⟨result, hr⟩
    obtain ⟨s', hrun, result, hresult⟩ := reaches_goal rank hstep ⟨h, hdone⟩
    exact ⟨s', result, hrun, hresult⟩

/-! ## The timer -/

/-- The timer event is going to wake the thread. -/
def TimerPc.due : TimerPc → Bool
  | .pending | .slice | .run => true
  | _ => false

/-- The callback of the timer event has not been missed: it is to come, or `block` can see that it
has begun. -/
structure Timely (s : State) : Prop where
  committed : s.block = .unlock ∨ s.block = .mark → s.timer = .pending ∨ s.blockedTimeout = true
  testTimeout : s.block = .testTimeout → s.thread = .blocked →
    s.timer = .pending ∨ s.blockedTimeout = true
  asleep : s.block = .asleep → s.thread = .blocked → s.timer.due = true

theorem unblocked_ne (state : ThreadState) : unblocked state ≠ .blocked := by
  cases state <;> decide

theorem step_timed (hs : step s move = some s') : s'.timed = s.timed := by
  cases move with
  | block atOnce =>
    simp only [step] at hs
    split at hs
    · simp only [blockTimeoutStep] at hs
      split at hs <;> (try split at hs) <;> cases hs <;> rfl
    · simp only [blockStep] at hs
      split at hs <;> (try split at hs) <;> cases hs <;> rfl
  | unblock =>
    simp only [step, unblockStep] at hs
    split at hs <;> (try split at hs) <;> cases hs <;> rfl
  | timer =>
    simp only [step, timerStep] at hs
    split at hs <;> cases hs <;> rfl

theorem blockTimeoutStep_timely (h : Timely s) {atOnce : Bool}
    (hs : blockTimeoutStep atOnce s = some s') : Timely s' := by
  obtain ⟨hcommitted, htest, hasleep⟩ := h
  unfold blockTimeoutStep at hs
  cases hpc : s.block with
  | getLock | asleep | interruptLock | destroy =>
    simp only [hpc, Option.ite_none_left_eq_some, Option.some.injEq] at hs
    obtain ⟨hfree, rfl⟩ := hs
    constructor <;> simp
  | construct | interruptThread =>
    simp only [hpc] at hs
    split at hs <;> cases hs
    all_goals constructor <;> simp
  | returned => simp [hpc] at hs
  | _ =>
    rw [hpc] at hs
    cases hs
    constructor <;> grind [TimerPc.due]

theorem unblockStep_timely (h : Timely s) (hs : unblockStep s = some s') : Timely s' := by
  obtain ⟨hcommitted, htest, hasleep⟩ := h
  have hne := unblocked_ne s.thread
  unfold unblockStep at hs
  cases hpc : s.unblock with
  | getLock =>
    rw [hpc] at hs
    obtain ⟨-, ⟨⟩⟩ := Option.ite_none_left_eq_some.mp hs
    exact ⟨hcommitted, htest, hasleep⟩
  | run =>
    rw [hpc] at hs
    cases hs
    exact ⟨hcommitted, fun _ hblocked ↦ absurd hblocked hne, fun _ hblocked ↦ absurd hblocked hne⟩
  | completed => simp [hpc] at hs
  | _ =>
    rw [hpc] at hs
    cases hs
    exact ⟨hcommitted, htest, hasleep⟩

theorem timerStep_timely (h : Timely s) (hs : timerStep s = some s') : Timely s' := by
  obtain ⟨hcommitted, htest, hasleep⟩ := h
  have hne := unblocked_ne s.thread
  unfold timerStep at hs
  split at hs <;> cases hs
  all_goals constructor <;> grind [TimerPc.due]

theorem timely_of_reaches (h : system.Reaches (fun _ _ ↦ True) s) (htimed : s.timed = true) :
    Timely s := by
  induction h with
  | initial h => constructor <;> simp [h.block]
  | @step s s' move _ _ hs ih =>
    have htimed' : s.timed = true := (step_timed hs).symm.trans htimed
    have htimely := ih htimed'
    cases move with
    | block atOnce =>
      simp only [system, step, htimed', if_true] at hs
      exact blockTimeoutStep_timely htimely hs
    | unblock => exact unblockStep_timely htimely hs
    | timer => exact timerStep_timely htimely hs

/-- **No wake-up is lost** in a run in which `unblock` does not mark the thread as running just
before that marks itself as blocked.  With a timeout, a thread that is asleep has at least that to
wait for. -/
theorem no_lost_wakeUp (s : State) :
    (system.Reaches (fun s move ↦ ¬ Misses s move) s → Woken s) ∧
      (system.Reaches (fun _ _ ↦ True) s → s.timed = true → s.block = .asleep →
        s.thread = .blocked → s.timer.due = true) :=
  ⟨fun h ↦ (inv_of_reaches h).woken, fun h htimed ↦ (timely_of_reaches h htimed).asleep⟩

/-- A thread that is about to block. -/
def about (timed : Bool) : State where
  timed := timed
  lock := false
  hasThread := false
  shouldBlock := true
  interrupted := false
  removed := false
  thread := .running
  timeSlice := 0
  timeSliceDefault := 10
  hasBlocker := false
  blockedTimeout := false
  timer := .none
  block := .getLock
  unblock := .clearShouldBlock

theorem reaches_about (timed : Bool) (P : State → Move → Prop) :
    system.Reaches P (about timed) :=
  .initial ⟨rfl, rfl, rfl, rfl, rfl, rfl, rfl, rfl⟩

/-- A thread whose blocker is unblocked first, and one that sleeps with a timeout. -/
theorem unblocked_first :
    Woken { about false with shouldBlock := false, removed := true, unblock := .completed } ∧
      TimerPc.due .pending = true := by
  constructor
  · have hmiss : ∀ s : State, s.block = .getLock → ¬ Misses s .unblock := fun s hblock h ↦
      BlockPc.noConfusion (hblock.symm.trans h.2.2.1)
    exact (no_lost_wakeUp _).1 (((((reaches_about false _).step (hmiss _ rfl) rfl).step
      (hmiss _ rfl) rfl).step (hmiss _ rfl) rfl).step (hmiss _ rfl) rfl |>.step (hmiss _ rfl) rfl)
  · exact (no_lost_wakeUp { about true with
      hasThread := true, hasBlocker := true, thread := .blocked, timer := .pending
      block := .asleep }).2
      ((reaches_about true _).foldlM (fun _ _ _ ↦ trivial)
        (show (List.replicate 9 (Move.block false)).foldlM step _ = _ from rfl)) rfl rfl rfl

/-- The thread goes to sleep after it has been woken, and nothing is left that could wake it. -/
theorem sleeps_on : ∃ s, system.Reaches (fun _ _ ↦ True) s ∧ s.unblock = .completed ∧
    s.block = .asleep ∧ s.thread = .blocked ∧ ∀ move, step s move = none := by
  refine ⟨{ about false with
    hasThread := true, shouldBlock := false, removed := true, thread := .blocked, timeSlice := 10
    hasBlocker := true, block := .asleep, unblock := .completed }, ?_, rfl, rfl, rfl, ?_⟩
  · exact (reaches_about false _).foldlM (fun _ _ _ ↦ trivial)
      (show (List.replicate 5 (Move.block false) ++
      List.replicate 7 Move.unblock ++ [Move.block false]).foldlM step _ = _ from rfl)
  · rintro (_ | _ | _) <;> rfl

end Block

end Borrrdex
