import Borrrdex.Lib.Runs
import Borrrdex.Sched.Schedule
import Mathlib.Tactic

/-!
# The end of a process

`scheduler::end_process` of the current process stops the other threads of the process, takes them
out of the run queues, puts the process on the list of the dead ones and only then leaves it: it
loads the page map of the kernel, marks its thread as dying and calls `schedule`, which switches to
the idle thread.  On another CPU `scheduler::gc` deletes what is on the list.

`step` lets any of them get on, and any CPU take a tick.  `schedule` is that of `Sched.Schedule`,
and `task_switch`, which loads the page map of the thread that has been chosen, is a step of its
own. `Premature` is a deletion that comes too early: before `end_process` has switched to another
thread, or while another CPU that has left a thread of the process has still to load the page map of
the next one. `safe_collection` says that without such a step nothing is deleted that is in use.
-/

set_option autoImplicit false

namespace Borrrdex

namespace Cpu

variable {ρ : Type}

/-! ## What `schedule` leaves alone -/

/-- The threads but for their time and registers, the idle thread, the lock, and what is in the run
queue and is not dying; nothing comes in. -/
structure Frame (c c' : Cpu ρ) : Prop where
  parent : ∀ t, (c'.threads t).parent = (c.threads t).parent
  state : ∀ t, c'.state t = c.state t
  idleProcess : c'.idleProcess = c.idleProcess
  idleThread : c'.idleThread = c.idleThread
  mem : ∀ t ∈ c'.runQueue, t ∈ c.runQueue
  keeps : ∀ t ∈ c.runQueue, c.state t ≠ .dying → t ∈ c'.runQueue

variable {c c' c'' : Cpu ρ}

theorem Frame.refl (c : Cpu ρ) : Frame c c :=
  ⟨fun _ ↦ rfl, fun _ ↦ rfl, rfl, rfl, fun _ h ↦ h, fun _ h _ ↦ h⟩

theorem Frame.trans (h : Frame c c') (h' : Frame c' c'') : Frame c c'' where
  parent t := (h'.parent t).trans (h.parent t)
  state t := (h'.state t).trans (h.state t)
  idleProcess := h'.idleProcess.trans h.idleProcess
  idleThread := h'.idleThread.trans h.idleThread
  mem t ht := h.mem t (h'.mem t ht)
  keeps t ht hdying := h'.keeps t (h.keeps t ht hdying) (by rwa [h.state])

/-- The time and the registers of a thread change. -/
theorem frame_setThread (c : Cpu ρ) (t : ℕ) (thread : Thread ρ)
    (hparent : thread.parent = (c.threads t).parent) (hstate : thread.state = c.state t)
    (o : Option ℕ) (ticks : ℕ → U64) :
    Frame c { c with
      threads := Function.update c.threads t thread, currentThread := o,
        activeTicks := ticks } where
  parent u := by
    dsimp only
    rw [Function.update_apply]
    split
    · next hu => rw [hu, hparent]
    · rfl
  state u := congrFun (c.state_update t hstate) u
  idleProcess := rfl
  idleThread := rfl
  mem _ h := h
  keeps _ h _ := h

theorem frame_leave (c : Cpu ρ) (t : ℕ) (regs : ρ) : Frame c (c.leave t regs) := by
  unfold leave
  dsimp only
  split
  · next hdying =>
    refine ⟨fun _ ↦ rfl, fun _ ↦ rfl, rfl, rfl, fun _ ↦ List.mem_of_mem_erase, fun u hu hlive ↦ ?_⟩
    have hne : u ≠ t := fun heq ↦ hlive (heq ▸ hdying)
    exact (List.mem_erase_of_ne hne).mpr hu
  · split
    · exact frame_setThread c t { c.threads t with
        registers := regs
        timeSlice := (c.threads t).timeSliceDefault } rfl rfl _ _
    · exact ⟨fun _ ↦ rfl, fun _ ↦ rfl, rfl, rfl, fun _ h ↦ h, fun _ h _ ↦ h⟩

theorem frame_skipBlocked (c : Cpu ρ) : Frame c c.skipBlocked := by
  unfold skipBlocked
  split
  · exact .refl c
  · split
    · exact ⟨fun _ ↦ rfl, fun _ ↦ rfl, rfl, rfl, fun _ h ↦ h, fun _ h _ ↦ h⟩
    · exact .refl c

theorem frame_pick (c : Cpu ρ) (regs : ρ) : Frame c (c.pick regs) := by
  have hidle : Frame c { c with currentThread := some c.idleThread } :=
    ⟨fun _ ↦ rfl, fun _ ↦ rfl, rfl, rfl, fun _ h ↦ h, fun _ h _ ↦ h⟩
  unfold pick
  split
  · exact hidle
  · split
    · exact hidle
    · exact (frame_leave c _ regs).trans (frame_skipBlocked _)

theorem frame_charge (c : Cpu ρ) : Frame c c.charge.2 := by
  unfold charge
  split
  · exact .refl c
  · dsimp only
    split
    · next t _ _ =>
      exact frame_setThread c t { c.threads t with timeSlice := (c.threads t).timeSlice - 1 }
        rfl rfl _ _
    · exact ⟨fun _ ↦ rfl, fun _ ↦ rfl, rfl, rfl, fun _ h ↦ h, fun _ h _ ↦ h⟩

theorem frame_schedule (c : Cpu ρ) (regs : ρ) : Frame c (c.schedule regs).1 := by
  unfold schedule
  dsimp only
  split
  · exact frame_charge c
  · exact (frame_charge c).trans (frame_pick _ regs)

/-- A call that does not switch. -/
theorem WellFormed.schedule_none (hc : c.WellFormed) {regs : ρ} (h : (c.schedule regs).2 = none) :
    (c.schedule regs).1.currentThread = c.currentThread := by
  by_cases hup : ∀ t ∈ c.currentThread, (c.threads t).timeSlice = 0
  · cases hlock : c.runQueueLocked with
    | true =>
      obtain ⟨ticks, hcharge⟩ := charge_of_up hup
      rw [Cpu.schedule, hcharge]
      dsimp only
      rw [if_pos (.inr hlock)]
    | false =>
      -- it would have switched
      obtain ⟨ticks, heq⟩ := schedule_eq hup hlock regs
      rw [heq, (hc.setTicks ticks).currentThread_pick regs] at h
      cases h
  · push Not at hup
    obtain ⟨t, ht, hne⟩ := hup
    have hpos : 0 < (c.threads t).timeSlice := by bv_omega
    rw [schedule_of_pos ht hpos]

/-- A dying thread is left for good. -/
theorem WellFormed.schedule_dying (hc : c.WellFormed) {t : ℕ} (ht : c.currentThread = some t)
    (hdying : c.state t = .dying) (hmem : t ∈ c.runQueue) {regs : ρ} {r : ℕ × ρ}
    (h : (c.schedule regs).2 = some r) : (c.schedule regs).1.runQueue = c.runQueue.erase t ∧
      (c.schedule regs).1.currentThread = some c.idleThread := by
  obtain ⟨hup, hlock⟩ := schedule_some h
  obtain ⟨ticks, heq⟩ := schedule_eq hup hlock regs
  have hcount : c.runQueueCount ≠ 0 := fun hzero ↦ by
    rw [hc.runQueue_eq_nil_iff.mpr hzero] at hmem
    cases hmem
  rw [heq]
  dsimp only
  rw [pick_eq_leave (c := { c with activeTicks := ticks }) ht hcount,
    leave_of_dying (c := { c with activeTicks := ticks }) hdying, skipBlocked_eq rfl]
  refine ⟨rfl, congrArg some (if_neg ?_)⟩
  have hidle := hc.idle_state
  intro hblocked
  exact ThreadState.noConfusion (hidle.symm.trans hblocked)

end Cpu

namespace Gc

/-- A process that is ending, the CPU and the thread that end it, and its other threads. -/
structure Ending (n : ℕ) where
  proc : ℕ
  home : Fin n
  thread : ℕ
  others : List ℕ

/-- Where the thread is in `end_process`. -/
inductive EndPc
  /-- The loop over the threads of the process, of which some are to come and some could not be
  stopped. -/
  | stop (threads running : List ℕ)
  /-- The loop over those that could not be stopped. -/
  | wait (running : List ℕ)
  /-- `acquire_lock(&c->run_queue_lock)`. -/
  | lockOwn
  /-- `remove_threads(proc, c)`, and the lock is released. -/
  | removeOwn
  /-- `acquire_lock(&other->run_queue_lock)`. -/
  | visit (i : ℕ)
  /-- The loop on `other->current_thread`, `remove_threads(proc, other)`, and the lock
  is released. -/
  | remove (i : ℕ)
  /-- `dead_processes->add(proc)`. -/
  | add
  /-- `is_process_to_kill`. -/
  | test
  /-- The page map of the kernel. -/
  | loadKernel
  /-- `state = thread_state::dying`. -/
  | dying
  /-- `time_slice = 0`. -/
  | slice
  /-- `schedule`. -/
  | reschedule
  /-- `schedule` has returned. -/
  | overran
  | finished
deriving DecidableEq

/-- Where the other CPU is in `gc`. -/
inductive GcPc
  | idle
  /-- `kstd::lock l(dead_process_lock)`. -/
  | lock
  /-- The head of the loop, with so many processes to come. -/
  | loop (i : ℕ)
  /-- `delete p->address_space`. -/
  | space (p i : ℕ)
  /-- `delete p`. -/
  | process (p i : ℕ)
  /-- `dead_processes->remove_at(i)`. -/
  | removeAt (i : ℕ)
  /-- The lock is released. -/
  | unlock
deriving DecidableEq

/-- The CPUs with the page maps that they have loaded, by process (`none` is the kernel's), and the
thread that each has left if it is in `schedule`; the dead processes and what is deleted. -/
structure State (n : ℕ) (ρ : Type) where
  cpu : Fin n → Cpu ρ
  loaded : Fin n → Option ℕ
  switching : Fin n → Option (Option ℕ)
  dead : List ℕ
  deadLock : Bool
  spaceDeleted : ℕ → Bool
  processDeleted : ℕ → Bool
  ending : EndPc
  gc : GcPc

variable {n : ℕ} {ρ : Type}

/-- What `remove_threads` leaves in the run queue. -/
def stays (proc : ℕ) (c : Cpu ρ) (t : ℕ) : Bool :=
  some t = c.currentThread ∨ (c.threads t).parent ≠ proc

/-- `remove_threads`. -/
def removeThreads (proc : ℕ) (c : Cpu ρ) : Cpu ρ :=
  { c with
    runQueue := c.runQueue.filter (stays proc c)
    runQueueCount :=
      c.runQueueCount - BitVec.ofNat 64 (c.runQueue.filter (!stays proc c ·)).length }

/-- What a CPU has done; the threads are those of all CPUs. -/
def State.put (s : State n ρ) (c : Fin n) (k : Cpu ρ) : State n ρ :=
  { s with cpu := fun o ↦
      if o = c then k else { s.cpu o with threads := k.threads, activeTicks := k.activeTicks } }

/-- A thread is written to. -/
def State.setThread (s : State n ρ) (t : ℕ) (f : Thread ρ → Thread ρ) : State n ρ :=
  { s with cpu := fun o ↦ { s.cpu o with
      threads := Function.update (s.cpu o).threads t (f ((s.cpu o).threads t)) } }

/-- A CPU has its run queue locked, or not. -/
def State.setLock (s : State n ρ) (c : Fin n) (locked : Bool) : State n ρ :=
  s.put c { s.cpu c with runQueueLocked := locked }

/-- A thread is kept from running. -/
def stopped (t : Thread ρ) : Thread ρ :=
  { t with state := .blocked, timeSlice := 0, timeSliceDefault := 0 }

/-- `end_process` gets on.  `free` says whether the lock of a thread is free. -/
def endStep (x : Ending n) (free : Bool) (regs : ρ) (s : State n ρ) : Option (State n ρ) :=
  match s.ending with
  | .stop [] running => some { s with ending := .wait running }
  | .stop (t :: threads) running =>
    if free then some { s.setThread t stopped with ending := .stop threads running }
    else
      some { s.setThread t fun thread ↦ { thread with state := .zombie } with
        ending := .stop threads (running ++ [t]) }
  | .wait [] => some { s with ending := .lockOwn }
  | .wait (t :: running) =>
    if free then some { s.setThread t stopped with ending := .wait running }
    else some { s with ending := .wait (running ++ [t]) }
  | .lockOwn =>
    if (s.cpu x.home).runQueueLocked then none
    else some { s.setLock x.home true with ending := .removeOwn }
  | .removeOwn =>
    some { s.put x.home { removeThreads x.proc (s.cpu x.home) with runQueueLocked := false } with
      ending := .visit 0 }
  | .visit i =>
    if h : i < n then
      if ⟨i, h⟩ = x.home then some { s with ending := .visit (i + 1) }
      else if (s.cpu ⟨i, h⟩).runQueueLocked then none
      else some { s.setLock ⟨i, h⟩ true with ending := .remove i }
    else some { s with ending := .add }
  | .remove i =>
    if h : i < n then
      if ∀ t ∈ (s.cpu ⟨i, h⟩).currentThread, ((s.cpu ⟨i, h⟩).threads t).parent ≠ x.proc then
        some { s.put ⟨i, h⟩
            { removeThreads x.proc (s.cpu ⟨i, h⟩) with runQueueLocked := false } with
          ending := .visit (i + 1) }
      else none
    else none
  | .add => some { s with dead := s.dead ++ [x.proc], ending := .test }
  | .test =>
    some { s with
      ending := if ((s.cpu x.home).threads x.thread).parent = x.proc then .loadKernel else .finished
        }
  | .loadKernel =>
    some { s with loaded := Function.update s.loaded x.home none, ending := .dying }
  | .dying =>
    some { s.setThread x.thread fun thread ↦ { thread with state := .dying } with ending := .slice }
  | .slice =>
    some { s.setThread x.thread fun thread ↦ { thread with timeSlice := 0 } with
      ending := .reschedule }
  | .reschedule =>
    match (s.cpu x.home).schedule regs with
    | (k, none) => some { s.put x.home k with ending := .overran }
    | (k, some _) =>
      some { s.put x.home k with
        switching := Function.update s.switching x.home (some (some x.thread))
        ending := .finished }
  | .overran | .finished => none

/-- The interrupts are off on the CPU of `end_process`. -/
def EndPc.masked : EndPc → Bool
  | .removeOwn | .remove _ | .loadKernel | .dying | .slice | .reschedule | .overran => true
  | _ => false

/-- A CPU takes a tick. -/
def tick (x : Ending n) (c : Fin n) (regs : ρ) (s : State n ρ) : Option (State n ρ) :=
  if (s.switching c).isSome ∨ (c = x.home ∧ s.ending.masked = true) then none
  else
    match (s.cpu c).schedule regs with
    | (k, none) => some (s.put c k)
    | (k, some _) =>
      some { s.put c k with
        switching := Function.update s.switching c (some (s.cpu c).currentThread) }

/-- `task_switch`. -/
def taskSwitch (c : Fin n) (s : State n ρ) : Option (State n ρ) :=
  if (s.switching c).isSome then
    some { s with
      loaded := Function.update s.loaded c
        ((s.cpu c).currentThread.map fun t ↦ ((s.cpu c).threads t).parent)
      switching := Function.update s.switching c none }
  else none

/-- `gc` gets on. -/
def gcStep (s : State n ρ) : Option (State n ρ) :=
  match s.gc with
  | .idle => some { s with gc := .lock }
  | .lock =>
    if s.deadLock then none else some { s with deadLock := true, gc := .loop s.dead.length }
  | .loop 0 => some { s with gc := .unlock }
  | .loop (i + 1) =>
    match s.dead[i]? with
    | none => some { s with gc := .loop i }
    | some p => some { s with gc := .space p i }
  | .space p i =>
    some { s with spaceDeleted := Function.update s.spaceDeleted p true, gc := .process p i }
  | .process p i =>
    some { s with processDeleted := Function.update s.processDeleted p true, gc := .removeAt i }
  | .removeAt i => some { s with dead := s.dead.eraseIdx i, gc := .loop i }
  | .unlock => some { s with deadLock := false, gc := .idle }

/-- Who gets on. -/
inductive Move (n : ℕ) (ρ : Type)
  | endProcess (free : Bool) (regs : ρ)
  | tick (c : Fin n) (regs : ρ)
  | taskSwitch (c : Fin n)
  | gc

/-- One step.  `end_process` gets on only while its thread is the current one. -/
def step (x : Ending n) (s : State n ρ) : Move n ρ → Option (State n ρ)
  | .endProcess free regs =>
    if (s.cpu x.home).currentThread = some x.thread ∧ s.switching x.home = none then
      endStep x free regs s
    else none
  | .tick c regs => tick x c regs s
  | .taskSwitch c => taskSwitch c s
  | .gc => gcStep s

/-- A CPU has nothing of a process to run. -/
structure Without (q : ℕ) (c : Cpu ρ) : Prop where
  current : ∀ t ∈ c.currentThread, (c.threads t).parent ≠ q
  queue : ∀ t ∈ c.runQueue, (c.threads t).parent ≠ q
  idle : c.idleProcess ≠ q

/-- A process is on no CPU any more, and its page map is not loaded. -/
structure Gone (q : ℕ) (s : State n ρ) : Prop where
  without : ∀ c, Without q (s.cpu c)
  loaded : ∀ c, s.loaded c ≠ some q

/-- The page map that is loaded is the kernel's, or that of the current thread, or of the one that
is being left. -/
def Linked (s : State n ρ) : Prop :=
  ∀ c q, s.loaded c = some q →
    ∃ t ∈ (s.switching c).getD (s.cpu c).currentThread, ((s.cpu c).threads t).parent = q

/-- The current process of a CPU is about to end, and of the processes that are dead already nothing
is left. -/
structure Initial (x : Ending n) (s : State n ρ) : Prop where
  threads : ∀ c o, (s.cpu c).threads = (s.cpu o).threads
  wellFormed : ∀ c, (s.cpu c).WellFormed
  linked : Linked s
  current : (s.cpu x.home).currentThread = some x.thread
  parent : ((s.cpu x.home).threads x.thread).parent = x.proc
  state : (s.cpu x.home).state x.thread ≠ .dying
  others : ∀ t ∈ x.others, t ≠ x.thread ∧ ((s.cpu x.home).threads t).parent = x.proc
  idle : ∀ c, (s.cpu c).idleProcess ≠ x.proc
  dead : ∀ q ∈ s.dead, Gone q s ∧ q ≠ x.proc
  deleted : ∀ q, s.spaceDeleted q = true ∨ s.processDeleted q = true → Gone q s
  ending : s.ending = .stop x.others []
  gc : s.gc = .idle

/-- The CPUs, `end_process` and `gc`. -/
def system (x : Ending n) (ρ : Type) : Machine (State n ρ) (Move n ρ) := ⟨Initial x, step x⟩

/-- `gc` deletes the address space of the process before `end_process` has switched to another
thread, or while another CPU that has left a thread of it has not loaded the next page map. -/
def Premature (x : Ending n) (s : State n ρ) : Move n ρ → Prop
  | .gc => ∃ i, s.gc = .space x.proc i ∧ (s.ending ≠ .finished ∨
      ∃ c ≠ x.home, ∃ t, s.switching c = some (some t) ∧ ((s.cpu c).threads t).parent = x.proc)
  | _ => False

/-- **Nothing is deleted that is in use**: of a process that is deleted, or whose address space is,
no thread is a current one, and no CPU has the page map loaded. -/
def Safe (s : State n ρ) : Prop :=
  ∀ q, s.spaceDeleted q = true ∨ s.processDeleted q = true → ∀ c, s.loaded c ≠ some q ∧
    ∀ t ∈ (s.cpu c).currentThread, ((s.cpu c).threads t).parent ≠ q

/-! ## The CPUs stay in order -/

variable {x : Ending n} {s s' : State n ρ} {move : Move n ρ} {c o : Fin n} {k : Cpu ρ} {q t : ℕ}

/-- No thread changes its process, nothing comes into a run queue, and the CPUs are in order. -/
structure Kept (s s' : State n ρ) : Prop where
  threads : ∀ c o, (s'.cpu c).threads = (s'.cpu o).threads
  wellFormed : ∀ c, (s'.cpu c).WellFormed
  parent : ∀ c t, ((s'.cpu c).threads t).parent = ((s.cpu c).threads t).parent
  idleProcess : ∀ c, (s'.cpu c).idleProcess = (s.cpu c).idleProcess
  mem : ∀ c, ∀ t ∈ (s'.cpu c).runQueue, t ∈ (s.cpu c).runQueue

/-- The threads may change, but for their processes and the state of the idle thread. -/
theorem wellFormed_threads {c : Cpu ρ} (hc : c.WellFormed) (threads : ℕ → Thread ρ)
    (ticks : ℕ → U64) (hparent : ∀ t, (threads t).parent = (c.threads t).parent)
    (hidle : (threads c.idleThread).state = .running) :
    ({ c with threads := threads, activeTicks := ticks } : Cpu ρ).WellFormed where
  count := hc.count
  nodup := hc.nodup
  parent t ht := (hparent t).trans_ne (hc.parent t ht)
  idle_parent := (hparent _).trans hc.idle_parent
  idle_state := hidle
  current := hc.current

theorem put_cpu (s : State n ρ) (c : Fin n) (k : Cpu ρ) : (s.put c k).cpu c = k := if_pos rfl

theorem put_cpu_ne (s : State n ρ) (h : o ≠ c) (k : Cpu ρ) :
    (s.put c k).cpu o = { s.cpu o with threads := k.threads, activeTicks := k.activeTicks } :=
  if_neg h

theorem put_threads (s : State n ρ) (c o : Fin n) (k : Cpu ρ) :
    ((s.put c k).cpu o).threads = k.threads := by
  by_cases h : o = c
  · rw [h, put_cpu]
  · rw [put_cpu_ne s h]

theorem kept_put (hthreads : ∀ c o, (s.cpu c).threads = (s.cpu o).threads)
    (hwell : ∀ c, (s.cpu c).WellFormed) (hk : k.WellFormed)
    (hparent : ∀ t, (k.threads t).parent = ((s.cpu c).threads t).parent)
    (hstate : ∀ t, k.state t = (s.cpu c).state t)
    (hidle : k.idleProcess = (s.cpu c).idleProcess)
    (hmem : ∀ t ∈ k.runQueue, t ∈ (s.cpu c).runQueue) : Kept s (s.put c k) where
  threads o o' := (put_threads s c o k).trans (put_threads s c o' k).symm
  wellFormed o := by
    by_cases h : o = c
    · rwa [h, put_cpu]
    · rw [put_cpu_ne s h]
      refine wellFormed_threads (hwell o) _ _ (fun t ↦ ?_) ?_
      · rw [hparent, hthreads c o]
      · refine (hstate _).trans ?_
        rw [Cpu.state, hthreads c o]
        exact (hwell o).idle_state
  parent o t := by rw [put_threads, hparent, hthreads c o]
  idleProcess o := by
    by_cases h : o = c
    · rw [h, put_cpu, hidle]
    · rw [put_cpu_ne s h]
  mem o t ht := by
    by_cases h : o = c
    · rw [h, put_cpu] at ht
      exact h ▸ hmem t ht
    · rwa [put_cpu_ne s h] at ht

theorem kept_schedule (hthreads : ∀ c o, (s.cpu c).threads = (s.cpu o).threads)
    (hwell : ∀ c, (s.cpu c).WellFormed) (c : Fin n) (regs : ρ) :
    Kept s (s.put c ((s.cpu c).schedule regs).1) := by
  have hframe := Cpu.frame_schedule (s.cpu c) regs
  exact kept_put hthreads hwell ((hwell c).schedule regs) hframe.parent hframe.state
    hframe.idleProcess hframe.mem

theorem kept_setLock (hthreads : ∀ c o, (s.cpu c).threads = (s.cpu o).threads)
    (hwell : ∀ c, (s.cpu c).WellFormed) (c : Fin n) (locked : Bool) :
    Kept s (s.setLock c locked) := by
  obtain ⟨hcount, hnodup, hparent, hidle, hstate, hcurrent⟩ := hwell c
  exact kept_put hthreads hwell ⟨hcount, hnodup, hparent, hidle, hstate, hcurrent⟩ (fun _ ↦ rfl)
    (fun _ ↦ rfl) rfl fun _ ht ↦ ht

theorem removeThreads_wellFormed {c : Cpu ρ} (hc : c.WellFormed) (proc : ℕ) :
    (removeThreads proc c).WellFormed where
  count := by
    have hcount := hc.count
    have hlt := c.runQueueCount.isLt
    have hsum := List.length_eq_length_filter_add (l := c.runQueue) (stays proc c)
    rw [removeThreads]
    dsimp only
    rw [BitVec.toNat_sub, BitVec.toNat_ofNat,
      Nat.mod_eq_of_lt (a := (c.runQueue.filter (!stays proc c ·)).length) (by omega)]
    omega
  nodup := hc.nodup.filter _
  parent t ht := hc.parent t (List.mem_of_mem_filter ht)
  idle_parent := hc.idle_parent
  idle_state := hc.idle_state
  current t ht := (hc.current t ht).imp_left fun hmem ↦
    List.mem_filter.mpr ⟨hmem, decide_eq_true (.inl (Option.mem_def.mp ht).symm)⟩

theorem kept_remove (hthreads : ∀ c o, (s.cpu c).threads = (s.cpu o).threads)
    (hwell : ∀ c, (s.cpu c).WellFormed) (c : Fin n) (proc : ℕ) :
    Kept s (s.put c { removeThreads proc (s.cpu c) with runQueueLocked := false }) := by
  obtain ⟨hcount, hnodup, hparent, hidle, hstate, hcurrent⟩ :=
    removeThreads_wellFormed (hwell c) proc
  exact kept_put hthreads hwell ⟨hcount, hnodup, hparent, hidle, hstate, hcurrent⟩ (fun _ ↦ rfl)
    (fun _ ↦ rfl) rfl fun _ ht ↦ List.mem_of_mem_filter ht

theorem kept_setThread (hthreads : ∀ c o, (s.cpu c).threads = (s.cpu o).threads)
    (hwell : ∀ c, (s.cpu c).WellFormed) {f : Thread ρ → Thread ρ}
    (hf : ∀ thread, (f thread).parent = thread.parent)
    (ht : ∀ c, ((s.cpu c).threads t).parent ≠ (s.cpu c).idleProcess) :
    Kept s (s.setThread t f) := by
  have hparent : ∀ c u, (((s.setThread t f).cpu c).threads u).parent =
      ((s.cpu c).threads u).parent := by
    intro c u
    change (Function.update (s.cpu c).threads t (f ((s.cpu c).threads t)) u).parent = _
    rw [Function.update_apply]
    split
    · next hu => rw [hf, hu]
    · rfl
  refine ⟨fun c o ↦ ?_, fun c ↦ ?_, hparent, fun _ ↦ rfl, fun _ _ hmem ↦ hmem⟩
  · change Function.update (s.cpu c).threads t (f ((s.cpu c).threads t)) =
      Function.update (s.cpu o).threads t (f ((s.cpu o).threads t))
    rw [hthreads c o]
  · refine wellFormed_threads (hwell c) _ _ (hparent c) ?_
    have hne : (s.cpu c).idleThread ≠ t := fun heq ↦ ht c (heq ▸ (hwell c).idle_parent)
    rw [Function.update_of_ne hne]
    exact (hwell c).idle_state

/-- What a CPU does not have to run, it does not get. -/
theorem Kept.without (h : Kept s s') (hq : Without q (s.cpu c)) : Without q (s'.cpu c) where
  queue t ht := (h.parent c t).trans_ne (hq.queue t (h.mem c t ht))
  idle := (h.idleProcess c).trans_ne hq.idle
  current t ht := by
    obtain hmem | rfl := (h.wellFormed c).current t ht
    · exact (h.parent c t).trans_ne (hq.queue t (h.mem c t hmem))
    · rw [(h.wellFormed c).idle_parent, h.idleProcess]
      exact hq.idle

/-- What is gone stays gone. -/
theorem Kept.gone (h : Kept s s') (hq : Gone q s)
    (hloaded : ∀ c, s'.loaded c = some q → s.loaded c = some q ∨
      ∃ t ∈ (s'.cpu c).currentThread, ((s'.cpu c).threads t).parent = q) : Gone q s' where
  without c := h.without (hq.without c)
  loaded c hl := by
    obtain hl | ⟨t, ht, hparent⟩ := hloaded c hl
    · exact hq.loaded c hl
    · exact (h.without (hq.without c)).current t ht hparent

/-! ## What holds in every run -/

/-- What holds wherever `end_process` is. -/
structure Base (x : Ending n) (s : State n ρ) : Prop where
  threads : ∀ c o, (s.cpu c).threads = (s.cpu o).threads
  wellFormed : ∀ c, (s.cpu c).WellFormed
  linked : Linked s
  idle : ∀ c, (s.cpu c).idleProcess ≠ x.proc
  parent : ((s.cpu x.home).threads x.thread).parent = x.proc
  dead : ∀ q ∈ s.dead, q ≠ x.proc → Gone q s
  deleted : ∀ q, s.spaceDeleted q = true ∨ s.processDeleted q = true → Gone q s
  space : ∀ p i, s.gc = .space p i → p ∈ s.dead
  process : ∀ p i, s.gc = .process p i → s.spaceDeleted p = true

/-- How far `end_process` is. -/
def EndPc.stage : EndPc → ℕ
  | .stop _ _ => 0
  | .wait _ => 1
  | .lockOwn => 2
  | .removeOwn => 3
  | .visit _ | .remove _ => 4
  | .add => 5
  | .test => 6
  | .loadKernel => 7
  | .dying => 8
  | .slice => 9
  | .reschedule => 10
  | .overran => 11
  | .finished => 12

/-- How many CPUs it has visited. -/
def EndPc.visited (n : ℕ) : EndPc → ℕ
  | .stop _ _ | .wait _ | .lockOwn | .removeOwn => 0
  | .visit i | .remove i => i
  | _ => n

/-- The threads that it has still to stop. -/
def EndPc.toStop : EndPc → List ℕ
  | .stop threads running => threads ++ running
  | .wait running => running
  | _ => []

/-- What holds where `end_process` is. -/
structure At (x : Ending n) (s : State n ρ) : Prop where
  toStop : ∀ t ∈ s.ending.toStop, t ≠ x.thread ∧ ((s.cpu x.home).threads t).parent = x.proc
  clean : ∀ c ≠ x.home, c.val < s.ending.visited n → Without x.proc (s.cpu c)
  cleanHome : 4 ≤ s.ending.stage → ∀ t ∈ (s.cpu x.home).runQueue,
    ((s.cpu x.home).threads t).parent = x.proc → t = x.thread
  member : s.ending.stage ≤ 10 → x.thread ∈ (s.cpu x.home).runQueue
  live : s.ending.stage ≤ 8 → (s.cpu x.home).state x.thread ≠ .dying
  dying : 9 ≤ s.ending.stage → s.ending.stage ≤ 10 → (s.cpu x.home).state x.thread = .dying
  late : 8 ≤ s.ending.stage → s.ending.stage ≤ 11 →
    s.loaded x.home = none ∧ s.switching x.home = none
  finished : s.ending = .finished → Without x.proc (s.cpu x.home) ∧ s.loaded x.home ≠ some x.proc
  unpublished : s.ending.stage ≤ 5 → x.proc ∉ s.dead

theorem Initial.base (h : Initial x s) : Base x s where
  threads := h.threads
  wellFormed := h.wellFormed
  linked := h.linked
  idle := h.idle
  parent := h.parent
  dead q hq _ := (h.dead q hq).1
  deleted := h.deleted
  space _ _ hgc := GcPc.noConfusion (h.gc.symm.trans hgc)
  process _ _ hgc := GcPc.noConfusion (h.gc.symm.trans hgc)

theorem Initial.at (h : Initial x s) : At x s := by
  have hmem : x.thread ∈ (s.cpu x.home).runQueue := by
    refine ((h.wellFormed x.home).current _ h.current).resolve_right fun heq ↦ h.idle x.home ?_
    rw [← (h.wellFormed x.home).idle_parent, ← heq, h.parent]
  constructor <;> rw [h.ending]
  · simpa [EndPc.toStop] using h.others
  · exact fun c _ hlt ↦ absurd hlt (Nat.not_lt_zero _)
  · exact fun hstage ↦ absurd hstage (Nat.not_succ_le_zero _)
  · exact fun _ ↦ hmem
  · exact fun _ ↦ h.state
  · exact fun hstage ↦ absurd hstage (Nat.not_succ_le_zero _)
  · exact fun hstage ↦ absurd hstage (Nat.not_succ_le_zero _)
  · exact fun heq ↦ EndPc.noConfusion heq
  · exact fun _ hdead ↦ (h.dead _ hdead).2 rfl

/-- A step that deletes nothing. -/
theorem Base.kept (h : Base x s) (hk : Kept s s')
    (hlinked : ∀ c q, s'.loaded c = some q → (s.loaded c = some q ∧
      (s'.switching c).getD (s'.cpu c).currentThread =
        (s.switching c).getD (s.cpu c).currentThread) ∨
      s'.switching c = none ∧ ∃ t ∈ (s'.cpu c).currentThread, ((s'.cpu c).threads t).parent = q)
    (hdead : ∀ q ∈ s'.dead, q ∈ s.dead ∨ q = x.proc) (hsub : ∀ q ∈ s.dead, q ∈ s'.dead)
    (hspace : s'.spaceDeleted = s.spaceDeleted) (hprocess : s'.processDeleted = s.processDeleted)
    (hgc : s'.gc = s.gc) : Base x s' := by
  have hgone : ∀ q, Gone q s → Gone q s' := fun q hq ↦ hk.gone hq fun c hl ↦
    (hlinked c q hl).imp And.left And.right
  exact {
    threads := hk.threads
    wellFormed := hk.wellFormed
    linked := fun c q hl ↦ by
      obtain ⟨hl, hsame⟩ | ⟨hnone, t, ht, hparent⟩ := hlinked c q hl
      · obtain ⟨t, ht, hparent⟩ := h.linked c q hl
        exact ⟨t, hsame ▸ ht, (hk.parent c t).trans hparent⟩
      · exact ⟨t, by rwa [hnone], hparent⟩
    idle := fun c ↦ (hk.idleProcess c).trans_ne (h.idle c)
    parent := (hk.parent _ _).trans h.parent
    dead := fun q hq hne ↦ hgone q (h.dead q ((hdead q hq).resolve_right hne) hne)
    deleted := fun q hq ↦ hgone q (h.deleted q (by rwa [hspace, hprocess] at hq))
    space := fun p i hp ↦ hsub p (h.space p i (hgc ▸ hp))
    process := fun p i hp ↦ by
      rw [hspace]
      exact h.process p i (hgc ▸ hp) }

/-! ## Ticks -/

/-- A step that `end_process` does not take, and that takes no thread that is alive out of its run
queue. -/
theorem At.kept (h : At x s) (hk : Kept s s') (hending : s'.ending = s.ending)
    (hmember : s.ending.stage ≤ 10 → x.thread ∈ (s'.cpu x.home).runQueue)
    (hstate : (s'.cpu x.home).state x.thread = (s.cpu x.home).state x.thread)
    (hlate : 8 ≤ s.ending.stage → s.ending.stage ≤ 11 →
      s'.loaded x.home = none ∧ s'.switching x.home = none)
    (hfinished : Without x.proc (s'.cpu x.home) → s'.loaded x.home = some x.proc →
      s.loaded x.home = some x.proc)
    (hdead : ∀ q ∈ s'.dead, q ∈ s.dead) : At x s' := by
  constructor <;> rw [hending]
  · exact fun t ht ↦ (h.toStop t ht).imp_right (hk.parent _ t).trans
  · exact fun c hne hlt ↦ hk.without (h.clean c hne hlt)
  · exact fun hstage t ht hparent ↦
      h.cleanHome hstage t (hk.mem _ t ht) ((hk.parent _ t).symm.trans hparent)
  · exact hmember
  · rw [hstate]
    exact h.live
  · rw [hstate]
    exact h.dying
  · exact hlate
  · intro hdone
    obtain ⟨hwithout, hloaded⟩ := h.finished hdone
    exact ⟨hk.without hwithout, fun hl ↦ hloaded (hfinished (hk.without hwithout) hl)⟩
  · exact fun hstage hmem ↦ h.unpublished hstage (hdead _ hmem)

theorem masked_of_stage {pc : EndPc} (h : 8 ≤ pc.stage) (h' : pc.stage ≤ 11) :
    pc.masked = true := by
  revert h h'
  cases pc <;> simp [EndPc.stage, EndPc.masked]

/-- What a tick does. -/
theorem tick_cases {regs : ρ} (hs : tick x c regs s = some s') (hwell : ∀ c, (s.cpu c).WellFormed) :
    s.switching c = none ∧ ¬ (c = x.home ∧ s.ending.masked = true) ∧ ∃ switching,
      s' = { s.put c ((s.cpu c).schedule regs).1 with switching := switching } ∧
      ((switching = s.switching ∧
          ((s.cpu c).schedule regs).1.currentThread = (s.cpu c).currentThread) ∨
        switching = Function.update s.switching c (some (s.cpu c).currentThread)) := by
  obtain ⟨hfree, hs⟩ := Option.ite_none_left_eq_some.mp hs
  obtain ⟨hswitching, hmasked⟩ := not_or.mp hfree
  refine ⟨by simpa using hswitching, hmasked, ?_⟩
  have hstay : ((s.cpu c).schedule regs).2 = none →
      ((s.cpu c).schedule regs).1.currentThread = (s.cpu c).currentThread := (hwell c).schedule_none
  split at hs
  · next k heq =>
    rw [heq] at hstay ⊢
    cases hs
    exact ⟨_, rfl, .inl ⟨rfl, hstay rfl⟩⟩
  · next k r heq =>
    rw [heq]
    cases hs
    exact ⟨_, rfl, .inr rfl⟩

theorem tick_inv {regs : ρ} (hb : Base x s) (ha : At x s) (hs : tick x c regs s = some s') :
    Base x s' ∧ At x s' := by
  obtain ⟨hnone, hmasked, switching, rfl, hswitching⟩ := tick_cases hs hb.wellFormed
  have hk := kept_schedule hb.threads hb.wellFormed c regs
  have hk' : Kept s { s.put c ((s.cpu c).schedule regs).1 with switching := switching } :=
    ⟨hk.threads, hk.wellFormed, hk.parent, hk.idleProcess, hk.mem⟩
  have hframe := Cpu.frame_schedule (s.cpu c) regs
  constructor
  · refine hb.kept hk' (fun o q hl ↦ .inl ⟨hl, ?_⟩) (fun q hq ↦ .inl hq) (fun q hq ↦ hq) rfl rfl rfl
    dsimp only
    by_cases ho : o = c
    · subst ho
      rw [put_cpu, hnone]
      obtain ⟨rfl, hcurrent⟩ | rfl := hswitching
      · rw [hnone, hcurrent]
      · rw [Function.update_self]
        rfl
    · rw [put_cpu_ne s ho]
      obtain ⟨rfl, -⟩ | rfl := hswitching
      · rfl
      · rw [Function.update_of_ne ho]
  · have hhome : 8 ≤ s.ending.stage → s.ending.stage ≤ 11 → x.home ≠ c := by
      rintro h8 h11 rfl
      exact hmasked ⟨rfl, masked_of_stage h8 h11⟩
    refine ha.kept hk' rfl (fun hstage ↦ ?_) ?_ (fun h8 h11 ↦ ?_) (fun _ hl ↦ hl) (fun _ hq ↦ hq)
    · by_cases hc : x.home = c
      · have hlive : s.ending.stage ≤ 8 := by
          by_contra hlt
          exact hhome (by omega) (by omega) hc
        subst hc
        dsimp only
        rw [put_cpu]
        exact hframe.keeps _ (ha.member hstage) (ha.live hlive)
      · dsimp only
        rw [put_cpu_ne s hc]
        exact ha.member hstage
    · dsimp only
      rw [Cpu.state, put_threads]
      refine (hframe.state _).trans ?_
      rw [Cpu.state, hb.threads c x.home]
      rfl
    · obtain ⟨hloaded, hhere⟩ := ha.late h8 h11
      refine ⟨hloaded, ?_⟩
      dsimp only
      obtain ⟨rfl, -⟩ | rfl := hswitching
      · exact hhere
      · rw [Function.update_of_ne (hhome h8 h11)]
        exact hhere

/-- The CPUs do nothing. -/
theorem Base.kept_of_eq (h : Base x s) (hcpu : s'.cpu = s.cpu) : Kept s s' := by
  constructor <;> rw [hcpu]
  · exact h.threads
  · exact h.wellFormed
  · exact fun _ _ ↦ rfl
  · exact fun _ ↦ rfl
  · exact fun _ _ ht ↦ ht

/-- A CPU loads the page map of the thread that it has chosen. -/
theorem taskSwitch_inv (hb : Base x s) (ha : At x s) (hs : taskSwitch c s = some s') :
    Base x s' ∧ At x s' := by
  obtain ⟨hsome, ⟨⟩⟩ := Option.ite_none_right_eq_some.mp hs
  have hnew : ∀ {q}, ((s.cpu c).currentThread.map fun t ↦ ((s.cpu c).threads t).parent) = some q →
      ∃ t ∈ (s.cpu c).currentThread, ((s.cpu c).threads t).parent = q := fun hq ↦
    Option.map_eq_some_iff.mp hq
  constructor
  · refine hb.kept (hb.kept_of_eq rfl) (fun o q hl ↦ ?_) (fun q hq ↦ .inl hq) (fun q hq ↦ hq)
      rfl rfl rfl
    dsimp only at hl ⊢
    by_cases ho : o = c
    · subst ho
      rw [Function.update_self] at hl
      exact .inr ⟨Function.update_self .., hnew hl⟩
    · rw [Function.update_of_ne ho] at hl
      rw [Function.update_of_ne ho]
      exact .inl ⟨hl, rfl⟩
  · refine ha.kept (hb.kept_of_eq rfl) rfl ha.member rfl (fun h8 h11 ↦ ?_) (fun hwithout hl ↦ ?_)
      (fun _ hq ↦ hq)
    · obtain ⟨hloaded, hhere⟩ := ha.late h8 h11
      have hne : x.home ≠ c := by
        rintro rfl
        rw [hhere] at hsome
        cases hsome
      exact ⟨(Function.update_of_ne hne ..).trans hloaded,
        (Function.update_of_ne hne ..).trans hhere⟩
    · dsimp only at hl
      by_cases hc : x.home = c
      · subst hc
        rw [Function.update_self] at hl
        obtain ⟨t, ht, hparent⟩ := hnew hl
        exact absurd hparent (hwithout.current t ht)
      · rwa [Function.update_of_ne hc] at hl

/-! ## The collector -/

/-- When `end_process` has switched to another thread and no other CPU is leaving one, the process
is gone. -/
theorem gone_of_finished (hb : Base x s) (ha : At x s) (hdone : s.ending = .finished)
    (hleft : ∀ c ≠ x.home, ∀ t, s.switching c = some (some t) →
      ((s.cpu c).threads t).parent ≠ x.proc) : Gone x.proc s := by
  obtain ⟨hhome, hloaded⟩ := ha.finished hdone
  have hwithout : ∀ c, Without x.proc (s.cpu c) := by
    intro c
    by_cases hc : c = x.home
    · rwa [hc]
    · exact ha.clean c hc (by rw [hdone]; exact c.isLt)
  refine ⟨hwithout, fun c hl ↦ ?_⟩
  obtain ⟨t, ht, hparent⟩ := hb.linked c _ hl
  have hc : c ≠ x.home := by
    rintro rfl
    exact hloaded hl
  cases hs : s.switching c with
  | none =>
    rw [hs] at ht
    exact (hwithout c).current t ht hparent
  | some left =>
    rw [hs] at ht
    exact hleft c hc t (hs.trans (congrArg some ht)) hparent

/-- A step of the collector, which touches no CPU. -/
theorem collect_inv (hb : Base x s) (ha : At x s) (hcpu : s'.cpu = s.cpu)
    (hloaded : s'.loaded = s.loaded) (hswitching : s'.switching = s.switching)
    (hending : s'.ending = s.ending) (hdead : ∀ q ∈ s'.dead, q ∈ s.dead)
    (hdeleted : ∀ q, s'.spaceDeleted q = true ∨ s'.processDeleted q = true → Gone q s)
    (hspace : ∀ p i, s'.gc = .space p i → p ∈ s'.dead)
    (hprocess : ∀ p i, s'.gc = .process p i → s'.spaceDeleted p = true) :
    Base x s' ∧ At x s' := by
  have hk : Kept s s' := hb.kept_of_eq hcpu
  have hgone : ∀ q, Gone q s → Gone q s' := fun q hq ↦
    hk.gone hq fun c hl ↦ .inl (hloaded ▸ hl)
  constructor
  · exact {
      threads := hk.threads
      wellFormed := hk.wellFormed
      linked := by
        intro c q
        rw [hloaded, hswitching, hcpu]
        exact hb.linked c q
      idle := fun c ↦ (hk.idleProcess c).trans_ne (hb.idle c)
      parent := (hk.parent _ _).trans hb.parent
      dead := fun q hq hne ↦ hgone q (hb.dead q (hdead q hq) hne)
      deleted := fun q hq ↦ hgone q (hdeleted q hq)
      space := hspace
      process := hprocess }
  · refine ha.kept hk hending ?_ ?_ ?_ ?_ hdead
    · rw [hcpu]
      exact ha.member
    · rw [hcpu]
    · rw [hloaded, hswitching]
      exact ha.late
    · rw [hloaded]
      exact fun _ hl ↦ hl

/-- A step that deletes nothing and takes no process from the list. -/
theorem collect_inv_of_idle (hb : Base x s) (ha : At x s) (hcpu : s'.cpu = s.cpu)
    (hloaded : s'.loaded = s.loaded) (hswitching : s'.switching = s.switching)
    (hending : s'.ending = s.ending) (hdead : s'.dead ⊆ s.dead)
    (hspace : s'.spaceDeleted = s.spaceDeleted) (hprocess : s'.processDeleted = s.processDeleted)
    (hgc : ∀ p i, s'.gc ≠ .space p i ∧ s'.gc ≠ .process p i) : Base x s' ∧ At x s' := by
  refine collect_inv hb ha hcpu hloaded hswitching hending hdead ?_
    (fun p i h ↦ absurd h (hgc p i).1) (fun p i h ↦ absurd h (hgc p i).2)
  rw [hspace, hprocess]
  exact hb.deleted

theorem gc_inv (hb : Base x s) (ha : At x s) (hpre : ¬ Premature x s .gc)
    (hs : gcStep s = some s') : Base x s' ∧ At x s' := by
  unfold gcStep at hs
  split at hs
  · cases hs
    exact collect_inv_of_idle hb ha rfl rfl rfl rfl (List.Subset.refl _) rfl rfl
      fun _ _ ↦ ⟨GcPc.noConfusion, GcPc.noConfusion⟩
  · obtain ⟨-, ⟨⟩⟩ := Option.ite_none_left_eq_some.mp hs
    exact collect_inv_of_idle hb ha rfl rfl rfl rfl (List.Subset.refl _) rfl rfl
      fun _ _ ↦ ⟨GcPc.noConfusion, GcPc.noConfusion⟩
  · cases hs
    exact collect_inv_of_idle hb ha rfl rfl rfl rfl (List.Subset.refl _) rfl rfl
      fun _ _ ↦ ⟨GcPc.noConfusion, GcPc.noConfusion⟩
  · next i _ =>
    split at hs
    · cases hs
      exact collect_inv_of_idle hb ha rfl rfl rfl rfl (List.Subset.refl _) rfl rfl
        fun _ _ ↦ ⟨GcPc.noConfusion, GcPc.noConfusion⟩
    · next p hp =>
      cases hs
      refine collect_inv hb ha rfl rfl rfl rfl (fun _ hq ↦ hq) hb.deleted
        (fun p' i' hgc ↦ ?_) (fun _ _ hgc ↦ GcPc.noConfusion hgc)
      cases hgc
      exact List.mem_of_getElem? hp
  · next p i hgc =>
    cases hs
    -- the process is one that was dead before, or the one that `end_process` has left
    have hgone : Gone p s := by
      by_cases hp : p = x.proc
      · subst hp
        have hsafe : ¬ (s.ending ≠ .finished ∨ ∃ c ≠ x.home, ∃ t, s.switching c = some (some t) ∧
            ((s.cpu c).threads t).parent = x.proc) := fun hearly ↦ hpre ⟨i, hgc, hearly⟩
        obtain ⟨hdone, hleft⟩ := not_or.mp hsafe
        exact gone_of_finished hb ha (not_not.mp hdone) fun c hc t ht hparent ↦
          hleft ⟨c, hc, t, ht, hparent⟩
      · exact hb.dead p (hb.space p i hgc) hp
    refine collect_inv hb ha rfl rfl rfl rfl (fun _ hq ↦ hq) (fun q hq ↦ ?_)
      (fun _ _ hgc' ↦ GcPc.noConfusion hgc') (fun p' i' hgc' ↦ ?_)
    · by_cases hqp : q = p
      · rwa [hqp]
      · dsimp only at hq
        rw [Function.update_of_ne hqp] at hq
        exact hb.deleted q hq
    · cases hgc'
      exact Function.update_self ..
  · next p i hgc =>
    cases hs
    have hspace := hb.process p i hgc
    refine collect_inv hb ha rfl rfl rfl rfl (fun _ hq ↦ hq) (fun q hq ↦ ?_)
      (fun _ _ hgc' ↦ GcPc.noConfusion hgc') (fun _ _ hgc' ↦ GcPc.noConfusion hgc')
    by_cases hqp : q = p
    · exact hb.deleted q (.inl (hqp ▸ hspace))
    · dsimp only at hq
      rw [Function.update_of_ne hqp] at hq
      exact hb.deleted q hq
  · cases hs
    exact collect_inv_of_idle hb ha rfl rfl rfl rfl (fun _ hq ↦ List.mem_of_mem_eraseIdx hq) rfl rfl
      fun _ _ ↦ ⟨GcPc.noConfusion, GcPc.noConfusion⟩
  · cases hs
    exact collect_inv_of_idle hb ha rfl rfl rfl rfl (List.Subset.refl _) rfl rfl
      fun _ _ ↦ ⟨GcPc.noConfusion, GcPc.noConfusion⟩

/-! ## The end of the process -/

/-- A step of `end_process` before it leaves the process: no CPU runs another thread, loads another
page map or is told of a process that is dead. -/
structure Early (s s' : State n ρ) : Prop extends Kept s s' where
  current : ∀ c, (s'.cpu c).currentThread = (s.cpu c).currentThread
  loaded : s'.loaded = s.loaded
  switching : s'.switching = s.switching
  dead : s'.dead = s.dead
  spaceDeleted : s'.spaceDeleted = s.spaceDeleted
  processDeleted : s'.processDeleted = s.processDeleted
  gc : s'.gc = s.gc

theorem Early.goto (h : Early s s') (pc : EndPc) : Early s { s' with ending := pc } :=
  { h with }

theorem Base.refl (h : Base x s) : Early s s :=
  { h.kept_of_eq rfl with
    current := fun _ ↦ rfl
    loaded := rfl
    switching := rfl
    dead := rfl
    spaceDeleted := rfl
    processDeleted := rfl
    gc := rfl }

theorem put_current (s : State n ρ) (c o : Fin n) {k : Cpu ρ}
    (hk : k.currentThread = (s.cpu c).currentThread) :
    ((s.put c k).cpu o).currentThread = (s.cpu o).currentThread := by
  by_cases h : o = c
  · rw [h, put_cpu, hk]
  · rw [put_cpu_ne s h]

theorem Base.setLock (h : Base x s) (c : Fin n) (locked : Bool) : Early s (s.setLock c locked) :=
  { kept_setLock h.threads h.wellFormed c locked with
    current := fun o ↦ put_current s c o rfl
    loaded := rfl
    switching := rfl
    dead := rfl
    spaceDeleted := rfl
    processDeleted := rfl
    gc := rfl }

theorem Base.remove (h : Base x s) (c : Fin n) (proc : ℕ) :
    Early s (s.put c { removeThreads proc (s.cpu c) with runQueueLocked := false }) :=
  { kept_remove h.threads h.wellFormed c proc with
    current := fun o ↦ put_current s c o rfl
    loaded := rfl
    switching := rfl
    dead := rfl
    spaceDeleted := rfl
    processDeleted := rfl
    gc := rfl }

theorem Base.setThread (h : Base x s) {f : Thread ρ → Thread ρ}
    (hf : ∀ thread, (f thread).parent = thread.parent)
    (ht : ((s.cpu x.home).threads t).parent = x.proc) : Early s (s.setThread t f) :=
  have hne : ∀ c, ((s.cpu c).threads t).parent ≠ (s.cpu c).idleProcess := fun c ↦ by
    rw [h.threads c x.home, ht]
    exact (h.idle c).symm
  { kept_setThread h.threads h.wellFormed hf hne with
    current := fun _ ↦ rfl
    loaded := rfl
    switching := rfl
    dead := rfl
    spaceDeleted := rfl
    processDeleted := rfl
    gc := rfl }

theorem Base.early (h : Base x s) (hs : Early s s') : Base x s' := by
  refine h.kept hs.toKept (fun c q hl ↦ .inl ⟨hs.loaded ▸ hl, ?_⟩) (fun q hq ↦ .inl (hs.dead ▸ hq))
    (fun q hq ↦ hs.dead ▸ hq) hs.spaceDeleted hs.processDeleted hs.gc
  rw [hs.switching, hs.current]

/-- What has to be shown where `end_process` has not yet loaded the page map of the kernel. -/
theorem At.early (ha : At x s) (hk : Kept s s') (hstage : s'.ending.stage ≤ 7)
    (hstop : ∀ t ∈ s'.ending.toStop, t ∈ s.ending.toStop)
    (hclean : ∀ c ≠ x.home, c.val < s'.ending.visited n →
      c.val < s.ending.visited n ∨ Without x.proc (s'.cpu c))
    (hhome : 4 ≤ s'.ending.stage → 4 ≤ s.ending.stage ∨ ∀ t ∈ (s'.cpu x.home).runQueue,
      ((s'.cpu x.home).threads t).parent = x.proc → t = x.thread)
    (hmember : x.thread ∈ (s'.cpu x.home).runQueue)
    (hlive : (s'.cpu x.home).state x.thread ≠ .dying)
    (hunpublished : s'.ending.stage ≤ 5 → x.proc ∉ s'.dead) : At x s' where
  toStop t ht := (ha.toStop t (hstop t ht)).imp_right (hk.parent _ t).trans
  clean c hne hlt := (hclean c hne hlt).elim (fun hlt ↦ hk.without (ha.clean c hne hlt)) id
  cleanHome h4 t ht hparent := by
    obtain h4 | hhome := hhome h4
    · exact ha.cleanHome h4 t (hk.mem _ t ht) ((hk.parent _ t).symm.trans hparent)
    · exact hhome t ht hparent
  member _ := hmember
  live _ := hlive
  dying h9 := by omega
  late h8 := by omega
  finished hdone := by
    rw [hdone] at hstage
    exact absurd hstage (by decide)
  unpublished := hunpublished

/-- A step that takes nothing out of a run queue and does not write to the thread. -/
theorem Early.inv (h : Early s s') (hb : Base x s) (ha : At x s)
    (hqueue : (s'.cpu x.home).runQueue = (s.cpu x.home).runQueue)
    (hstate : (s'.cpu x.home).state x.thread = (s.cpu x.home).state x.thread)
    (hle : s.ending.stage ≤ s'.ending.stage) (hstage : s'.ending.stage ≤ 7)
    (hstop : ∀ t ∈ s'.ending.toStop, t ∈ s.ending.toStop)
    (hclean : ∀ c ≠ x.home, c.val < s'.ending.visited n → c.val < s.ending.visited n)
    (hhome : 4 ≤ s'.ending.stage → 4 ≤ s.ending.stage) : Base x s' ∧ At x s' := by
  refine ⟨hb.early h, ha.early h.toKept hstage hstop (fun c hne hlt ↦ .inl (hclean c hne hlt))
    (fun h4 ↦ .inl (hhome h4)) ?_ ?_ fun h5 ↦ ?_⟩
  · rw [hqueue]
    exact ha.member (by omega)
  · rw [hstate]
    exact ha.live (by omega)
  · rw [h.dead]
    exact ha.unpublished (by omega)

theorem mem_removeThreads {proc : ℕ} {k : Cpu ρ} : t ∈ (removeThreads proc k).runQueue ↔
    t ∈ k.runQueue ∧ (some t = k.currentThread ∨ (k.threads t).parent ≠ proc) := by
  rw [removeThreads, List.mem_filter, stays, decide_eq_true_iff]

theorem setLock_runQueue (s : State n ρ) (c o : Fin n) (locked : Bool) :
    ((s.setLock c locked).cpu o).runQueue = (s.cpu o).runQueue := by
  rw [State.setLock]
  by_cases h : o = c
  · rw [h, put_cpu]
  · rw [put_cpu_ne s h]

theorem Base.put_state (h : Base x s) (c o : Fin n) {k : Cpu ρ}
    (hk : k.threads = (s.cpu c).threads) : ((s.put c k).cpu o).state t = (s.cpu o).state t := by
  rw [Cpu.state, put_threads, hk, Cpu.state, h.threads c o]

/-- The thread writes to another one of the process. -/
theorem setThread_state (s : State n ρ) {u : ℕ} (h : u ≠ t) (f : Thread ρ → Thread ρ) (c : Fin n) :
    ((s.setThread u f).cpu c).state t = (s.cpu c).state t :=
  congrArg Thread.state (Function.update_of_ne h.symm ..)

theorem stop_inv (hb : Base x s) (ha : At x s) {u : ℕ} (hu : u ∈ s.ending.toStop)
    {f : Thread ρ → Thread ρ} (hf : ∀ thread, (f thread).parent = thread.parent) {pc : EndPc}
    (hle : s.ending.stage ≤ pc.stage) (hstage : pc.stage ≤ 1)
    (hstop : ∀ t ∈ pc.toStop, t ∈ s.ending.toStop) :
    Base x { s.setThread u f with ending := pc } ∧ At x { s.setThread u f with ending := pc } := by
  obtain ⟨hne, hparent⟩ := ha.toStop u hu
  refine ((hb.setThread hf hparent).goto pc).inv hb ha rfl (setThread_state s hne f x.home) hle
    (hstage.trans (by decide)) hstop (fun c _ hlt ↦ ?_) fun h4 ↦
      absurd (h4.trans hstage) (by decide)
  -- no CPU has been visited
  change c.val < pc.visited n at hlt
  cases pc <;> first
    | exact absurd hlt (Nat.not_lt_zero _)
    | exact absurd hstage (by simp [EndPc.stage])

/-- The CPU of `end_process` is left with the thread itself. -/
theorem removeOwn_inv (hb : Base x s) (ha : At x s) (hpc : s.ending = .removeOwn)
    (hcurrent : (s.cpu x.home).currentThread = some x.thread) :
    let s' := { s.put x.home { removeThreads x.proc (s.cpu x.home) with runQueueLocked := false }
      with
      ending := .visit 0 }
    Base x s' ∧ At x s' := by
  intro s'
  have he : Early s s' := (hb.remove x.home x.proc).goto _
  have hcpu : s'.cpu x.home =
      { removeThreads x.proc (s.cpu x.home) with runQueueLocked := false } := put_cpu ..
  have hstate : (s'.cpu x.home).state x.thread = (s.cpu x.home).state x.thread :=
    hb.put_state _ _ rfl
  have h3 : s.ending.stage = 3 := by rw [hpc, EndPc.stage]
  refine ⟨hb.early he, ha.early he.toKept (by simp [s', EndPc.stage]) (fun t ht ↦ ?_)
    (fun c _ hlt ↦ absurd hlt (Nat.not_lt_zero _))
      (fun _ ↦ .inr fun t ht hparent ↦ ?_) ?_ ?_ fun _ ↦ ?_⟩
  · cases ht
  · rw [hcpu] at ht hparent
    obtain ⟨-, hstay⟩ := mem_removeThreads.mp ht
    exact Option.some_injective _ ((hstay.resolve_right (not_not.mpr hparent)).trans hcurrent)
  · rw [hcpu]
    exact mem_removeThreads.mpr ⟨ha.member (by omega), .inl hcurrent.symm⟩
  · exact hstate.trans_ne (ha.live (by omega))
  · exact ha.unpublished (by omega)

/-- Another CPU is left with nothing of the process. -/
theorem remove_inv (hb : Base x s) (ha : At x s) {i : ℕ} (hi : i < n) (hpc : s.ending = .remove i)
    (hcurrent : ∀ t ∈ (s.cpu ⟨i, hi⟩).currentThread,
      ((s.cpu ⟨i, hi⟩).threads t).parent ≠ x.proc) (hhere : ⟨i, hi⟩ ≠ x.home) :
    let s' := { s.put ⟨i, hi⟩
        { removeThreads x.proc (s.cpu ⟨i, hi⟩) with runQueueLocked := false } with
      ending := .visit (i + 1) }
    Base x s' ∧ At x s' := by
  intro s'
  have he : Early s s' := (hb.remove ⟨i, hi⟩ x.proc).goto _
  have hcpu : s'.cpu ⟨i, hi⟩ =
      { removeThreads x.proc (s.cpu ⟨i, hi⟩) with runQueueLocked := false } := put_cpu ..
  have hstate : (s'.cpu x.home).state x.thread = (s.cpu x.home).state x.thread :=
    hb.put_state _ _ rfl
  have h4 : s.ending.stage = 4 := by rw [hpc, EndPc.stage]
  refine ⟨hb.early he, ha.early he.toKept (by simp [s', EndPc.stage]) (fun t ht ↦ ?_)
    (fun c _ hlt ↦ ?_)
    (fun _ ↦ .inl h4.ge) ?_ ?_ fun _ ↦ ?_⟩
  · cases ht
  · rw [hpc]
    obtain hlt | heq := Nat.lt_succ_iff_lt_or_eq.mp hlt
    · exact .inl hlt
    · obtain rfl : c = ⟨i, hi⟩ := Fin.ext heq
      right
      rw [hcpu]
      refine ⟨hcurrent, fun t ht ↦ ?_, hb.idle _⟩
      exact (mem_removeThreads.mp ht).2.elim (fun hstay ↦ hcurrent t hstay.symm) id
  · dsimp only [s']
    rw [put_cpu_ne s hhere.symm]
    exact ha.member (by omega)
  · exact hstate.trans_ne (ha.live (by omega))
  · exact ha.unpublished (by omega)

theorem toStop_of_stage {pc : EndPc} (h : 2 ≤ pc.stage) : pc.toStop = [] := by
  revert h
  cases pc <;> simp [EndPc.stage, EndPc.toStop]

theorem visited_of_stage {pc : EndPc} (h : 5 ≤ pc.stage) : pc.visited n = n := by
  revert h
  cases pc <;> simp [EndPc.stage, EndPc.visited]

/-- What has to be shown once the page map of the kernel is loaded. -/
theorem At.leaving (ha : At x s) (hk : Kept s s') (h7 : 7 ≤ s.ending.stage)
    (h8 : 8 ≤ s'.ending.stage)
    (hmember : s'.ending.stage ≤ 10 → x.thread ∈ (s'.cpu x.home).runQueue)
    (hlive : s'.ending.stage ≤ 8 → (s'.cpu x.home).state x.thread ≠ .dying)
    (hdying : 9 ≤ s'.ending.stage → s'.ending.stage ≤ 10 →
      (s'.cpu x.home).state x.thread = .dying)
    (hlate : s'.ending.stage ≤ 11 → s'.loaded x.home = none ∧ s'.switching x.home = none)
    (hfinished : s'.ending = .finished →
      Without x.proc (s'.cpu x.home) ∧ s'.loaded x.home ≠ some x.proc) : At x s' where
  toStop t ht := by
    rw [toStop_of_stage (by omega)] at ht
    cases ht
  clean c hne hlt := by
    refine hk.without (ha.clean c hne ?_)
    rw [visited_of_stage (by omega)]
    exact c.isLt
  cleanHome _ t ht hparent :=
    ha.cleanHome (by omega) t (hk.mem _ t ht) ((hk.parent _ t).symm.trans hparent)
  member := hmember
  live := hlive
  dying := hdying
  late _ := hlate
  finished := hfinished
  unpublished h5 := by omega

theorem loadKernel_inv (hb : Base x s) (ha : At x s) (hpc : s.ending = .loadKernel)
    (hhere : s.switching x.home = none) :
    let s' := { s with loaded := Function.update s.loaded x.home none, ending := .dying }
    Base x s' ∧ At x s' := by
  intro s'
  have hk : Kept s s' := hb.kept_of_eq rfl
  have h7 : s.ending.stage = 7 := by rw [hpc, EndPc.stage]
  have hloaded : s'.loaded x.home = none := by simp [s']
  constructor
  · refine hb.kept hk (fun c q hl ↦ .inl ⟨?_, rfl⟩) (fun q hq ↦ .inl hq) (fun q hq ↦ hq) rfl rfl rfl
    change Function.update s.loaded x.home none c = some q at hl
    by_cases hc : c = x.home
    · rw [hc, Function.update_self] at hl
      cases hl
    · rwa [Function.update_of_ne hc] at hl
  · exact ha.leaving hk h7.ge (by simp [s', EndPc.stage]) (fun _ ↦ ha.member (by omega))
      (fun _ ↦ ha.live (by omega)) (fun h9 ↦ absurd h9 (by simp [s', EndPc.stage]))
      (fun _ ↦ ⟨hloaded, hhere⟩)
      (fun hdone ↦ EndPc.noConfusion hdone)

/-- The thread writes to itself: it is dying, and has no time left. -/
theorem dying_inv (hb : Base x s) (ha : At x s) (h8 : 8 ≤ s.ending.stage)
    (h9 : s.ending.stage ≤ 9) {f : Thread ρ → Thread ρ}
    (hf : ∀ thread, (f thread).parent = thread.parent)
    (hdying : (f ((s.cpu x.home).threads x.thread)).state = .dying) {pc : EndPc}
    (h9' : 9 ≤ pc.stage) (h10 : pc.stage ≤ 10) :
    let s' := { s.setThread x.thread f with ending := pc }
    Base x s' ∧ At x s' := by
  intro s'
  have he : Early s s' := (hb.setThread hf hb.parent).goto pc
  have hstate : (s'.cpu x.home).state x.thread = .dying := by
    change (Function.update (s.cpu x.home).threads x.thread _ x.thread).state = _
    rw [Function.update_self, hdying]
  refine ⟨hb.early he, ha.leaving he.toKept (by omega) ((by decide : 8 ≤ 9).trans h9')
    (fun _ ↦ ha.member (by omega)) (fun h ↦ absurd (h9'.trans h) (by decide)) (fun _ _ ↦ hstate)
    (fun _ ↦ ha.late h8 (by omega)) fun hdone ↦ ?_⟩
  change pc = .finished at hdone
  rw [hdone] at h10
  exact absurd h10 (by decide)

/-- `schedule` on the CPU of `end_process`, the kernel's page map being loaded. -/
theorem reschedule_base (hb : Base x s) (hloaded : s.loaded x.home = none) (regs : ρ)
    {switching : Fin n → Option (Option ℕ)}
    (hswitching : ∀ c ≠ x.home, switching c = s.switching c) (pc : EndPc) :
    Kept s { s.put x.home ((s.cpu x.home).schedule regs).1 with
      switching := switching, ending := pc } ∧
    Base x { s.put x.home ((s.cpu x.home).schedule regs).1 with
      switching := switching, ending := pc } := by
  have hk := kept_schedule hb.threads hb.wellFormed x.home regs
  have hk' : Kept s { s.put x.home ((s.cpu x.home).schedule regs).1 with
      switching := switching, ending := pc } :=
    ⟨hk.threads, hk.wellFormed, hk.parent, hk.idleProcess, hk.mem⟩
  refine ⟨hk', hb.kept hk' (fun c q hl ↦ .inl ⟨hl, ?_⟩) (fun q hq ↦ .inl hq) (fun q hq ↦ hq)
    rfl rfl rfl⟩
  have hne : c ≠ x.home := by
    rintro rfl
    cases hloaded.symm.trans hl
  dsimp only
  rw [put_cpu_ne s hne, hswitching c hne]

/-- A run queue without the process is a CPU without it. -/
theorem Base.without (hb : Base x s)
    (hqueue : ∀ t ∈ (s.cpu c).runQueue, ((s.cpu c).threads t).parent ≠ x.proc) :
    Without x.proc (s.cpu c) where
  queue := hqueue
  idle := hb.idle c
  current t ht := by
    obtain hmem | rfl := (hb.wellFormed c).current t ht
    · exact hqueue t hmem
    · rw [(hb.wellFormed c).idle_parent]
      exact hb.idle c

theorem reschedule_inv {free : Bool} {regs : ρ} (hb : Base x s) (ha : At x s)
    (hpc : s.ending = .reschedule)
    (hcurrent : (s.cpu x.home).currentThread = some x.thread)
    (hs : endStep x free regs s = some s') : Base x s' ∧ At x s' := by
  have h10 : s.ending.stage = 10 := by rw [hpc, EndPc.stage]
  obtain ⟨hloaded, hhere⟩ := ha.late (by omega) (by omega)
  have hmem := ha.member h10.le
  have hleft (r : ℕ × ρ) (hr : ((s.cpu x.home).schedule regs).2 = some r) :=
    (hb.wellFormed x.home).schedule_dying hcurrent (ha.dying (by omega) h10.le) hmem hr
  have hkept (switching : Fin n → Option (Option ℕ))
      (hswitching : ∀ c ≠ x.home, switching c = s.switching c) :=
    reschedule_base hb hloaded regs hswitching
  rw [endStep, hpc] at hs
  dsimp only at hs
  split at hs
  · next k heq =>
    rw [heq] at hkept
    cases hs
    obtain ⟨hk, hb'⟩ := hkept s.switching (fun _ _ ↦ rfl) .overran
    refine ⟨hb', ha.leaving hk (by omega) (by simp [EndPc.stage]) ?_ ?_ ?_
      (fun _ ↦ ⟨hloaded, hhere⟩) fun hdone ↦ EndPc.noConfusion hdone⟩ <;>
    simp [EndPc.stage]
  · next k r heq =>
    rw [heq] at hkept hleft
    cases hs
    obtain ⟨hk, hb'⟩ := hkept (Function.update s.switching x.home (some (some x.thread)))
      (fun c hne ↦ Function.update_of_ne hne ..) .finished
    refine ⟨hb', ha.leaving hk (by omega) (by simp [EndPc.stage]) ?_ ?_ ?_ ?_ fun _ ↦
      ⟨hb'.without fun t ht hparent ↦ ?_, fun hl ↦ ?_⟩⟩
    iterate 4 simp [EndPc.stage]
    · -- the thread was the last one of the process here
      have ht' := ht
      dsimp only at ht
      rw [put_cpu, (hleft _ rfl).1] at ht
      obtain ⟨hne, hmem⟩ := ((hb.wellFormed x.home).nodup.mem_erase_iff).mp ht
      exact hne (ha.cleanHome (by omega) t hmem ((hk.parent _ t).symm.trans hparent))
    · cases hloaded.symm.trans hl

/-- What `end_process` does while its thread is the current one. -/
theorem endStep_inv {free : Bool} {regs : ρ} (hb : Base x s) (ha : At x s)
    (hcurrent : (s.cpu x.home).currentThread = some x.thread) (hhere : s.switching x.home = none)
    (hs : endStep x free regs s = some s') : Base x s' ∧ At x s' := by
  have hs' := hs
  unfold endStep at hs
  split at hs
  · next running hpc =>
    cases hs
    refine (hb.refl.goto (.wait running)).inv hb ha rfl rfl ?_ ?_ ?_ ?_ ?_ <;>
      simp [hpc, EndPc.stage, EndPc.visited, EndPc.toStop]
  · next u threads running hpc =>
    have hu : u ∈ s.ending.toStop := by simp [hpc, EndPc.toStop]
    split at hs <;> cases hs
    · refine stop_inv hb ha hu ?_ ?_ ?_ ?_ <;>
        simp +contextual [hpc, stopped, EndPc.stage, EndPc.toStop]
    · refine stop_inv hb ha hu ?_ ?_ ?_ fun t ht ↦ ?_
      · exact fun _ ↦ rfl
      · simp [hpc, EndPc.stage]
      · simp [EndPc.stage]
      · simp only [hpc, EndPc.toStop, List.mem_append, List.mem_cons, List.not_mem_nil] at ht ⊢
        tauto
  · next hpc =>
    cases hs
    refine (hb.refl.goto .lockOwn).inv hb ha rfl rfl ?_ ?_ ?_ ?_ ?_ <;>
      simp [hpc, EndPc.stage, EndPc.visited, EndPc.toStop]
  · next u running hpc =>
    have hu : u ∈ s.ending.toStop := by simp [hpc, EndPc.toStop]
    split at hs <;> cases hs
    · refine stop_inv hb ha hu ?_ ?_ ?_ ?_ <;>
        simp +contextual [hpc, stopped, EndPc.stage, EndPc.toStop]
    · refine (hb.refl.goto (.wait (running ++ [u]))).inv hb ha rfl rfl ?_ ?_ ?_ ?_ ?_ <;>
        simp [hpc, EndPc.stage, EndPc.visited, EndPc.toStop, or_comm]
  · next hpc =>
    obtain ⟨-, ⟨⟩⟩ := Option.ite_none_left_eq_some.mp hs
    refine ((hb.setLock x.home true).goto .removeOwn).inv hb ha (setLock_runQueue ..)
      (hb.put_state _ _ rfl) ?_ ?_ ?_ ?_ ?_ <;>
      simp [hpc, EndPc.stage, EndPc.visited, EndPc.toStop]
  · next hpc =>
    cases hs
    exact removeOwn_inv hb ha hpc hcurrent
  · next i hpc =>
    split at hs
    · next hi =>
      split at hs
      · next hown =>
        cases hs
        refine (hb.refl.goto (.visit (i + 1))).inv hb ha rfl rfl ?_ ?_ ?_ ?_ ?_
        -- the CPU is that of `end_process` itself
        case refine_4 =>
          intro c hne hlt
          have hci : c.val ≠ i := fun heq ↦ hne (hown ▸ Fin.ext heq)
          simp only [hpc, EndPc.visited] at hlt ⊢
          omega
        all_goals simp [hpc, EndPc.stage, EndPc.toStop]
      · obtain ⟨-, ⟨⟩⟩ := Option.ite_none_left_eq_some.mp hs
        refine ((hb.setLock ⟨i, hi⟩ true).goto (.remove i)).inv hb ha (setLock_runQueue ..)
          (hb.put_state _ _ rfl) ?_ ?_ ?_ ?_ ?_ <;>
          simp [hpc, EndPc.stage, EndPc.visited, EndPc.toStop]
    · next hi =>
      cases hs
      refine (hb.refl.goto .add).inv hb ha rfl rfl ?_ ?_ ?_ ?_ ?_
      case refine_4 =>
        intro c _ _
        simp only [hpc, EndPc.visited]
        omega
      all_goals simp [hpc, EndPc.stage, EndPc.toStop]
  · next i hpc =>
    split at hs
    · next hi =>
      obtain ⟨hother, ⟨⟩⟩ := Option.ite_none_right_eq_some.mp hs
      refine remove_inv hb ha hi hpc hother fun hown ↦ ?_
      rw [hown] at hother
      exact hother x.thread hcurrent hb.parent
    · cases hs
  · next hpc =>
    cases hs
    have hk : Kept s { s with dead := s.dead ++ [x.proc], ending := .test } := hb.kept_of_eq rfl
    have h5 : s.ending.stage = 5 := by rw [hpc, EndPc.stage]
    refine ⟨hb.kept hk (fun c q hl ↦ .inl ⟨hl, rfl⟩) (fun q hq ↦ ?_) (fun q hq ↦ ?_) rfl rfl rfl,
      ha.early hk ?_ ?_ (fun c _ hlt ↦ .inl ?_) (fun _ ↦ .inl (by omega)) (ha.member (by omega))
        (ha.live (by omega)) ?_⟩
    · exact (List.mem_append.mp hq).imp_right List.mem_singleton.mp
    · exact List.mem_append_left _ hq
    · simp [EndPc.stage]
    · simp [EndPc.toStop]
    · rwa [hpc]
    · simp [EndPc.stage]
  · next hpc =>
    rw [if_pos hb.parent] at hs
    cases hs
    refine (hb.refl.goto .loadKernel).inv hb ha rfl rfl ?_ ?_ ?_ ?_ ?_ <;>
      simp [hpc, EndPc.stage, EndPc.visited, EndPc.toStop]
  · next hpc =>
    cases hs
    exact loadKernel_inv hb ha hpc hhere
  · next hpc =>
    cases hs
    refine dying_inv hb ha ?_ ?_ ?_ ?_ ?_ ?_ <;> simp [hpc, EndPc.stage]
  · next hpc =>
    cases hs
    have hdying := ha.dying (by simp [hpc, EndPc.stage]) (by simp [hpc, EndPc.stage])
    refine dying_inv hb ha ?_ ?_ ?_ hdying ?_ ?_ <;> simp [hpc, EndPc.stage]
  · next hpc => exact reschedule_inv hb ha hpc hcurrent hs'
  · cases hs
  · cases hs

theorem step_inv (hb : Base x s) (ha : At x s) (hpre : ¬ Premature x s move)
    (hs : step x s move = some s') : Base x s' ∧ At x s' := by
  cases move with
  | endProcess free regs =>
    obtain ⟨⟨hcurrent, hhere⟩, hs⟩ := Option.ite_none_right_eq_some.mp hs
    exact endStep_inv hb ha hcurrent hhere hs
  | tick c regs => exact tick_inv hb ha hs
  | taskSwitch c => exact taskSwitch_inv hb ha hs
  | gc => exact gc_inv hb ha hpre hs

theorem Base.safe (h : Base x s) : Safe s := fun q hq c ↦
  ⟨(h.deleted q hq).loaded c, ((h.deleted q hq).without c).current⟩

/-- **In a run in which `gc` does not delete the process too early, it deletes nothing that is in
use.** -/
theorem safe_collection (x : Ending n) (s : State n ρ)
    (h : (system x ρ).Reaches (fun s m ↦ ¬ Premature x s m) s) : Safe s := by
  have hinitial : ∀ s : State n ρ, Initial x s → Base x s ∧ At x s := fun _ hs ↦ ⟨hs.base, hs.at⟩
  have hinv := h.invariant hinitial fun _ _ _ hinv hpre hs ↦ step_inv hinv.1 hinv.2 hpre hs
  exact hinv.1.safe

theorem not_premature (h : ∀ i, s.gc ≠ .space x.proc i) : ¬ Premature x s .gc :=
  fun ⟨i, hgc, _⟩ ↦ h i hgc

/-- Two CPUs that each run a thread of a process, which ends. -/
def pair : Ending 2 := { proc := 7, home := ⟨0, Nat.two_pos⟩, thread := 5, others := [6] }

/-- A CPU that has one thread in its run queue. -/
def pairCpu (t idle : ℕ) : Cpu Unit where
  currentThread := some t
  idleProcess := 0
  idleThread := idle
  runQueueLocked := false
  runQueueCount := 1
  runQueue := [t]
  threads u :=
    { parent := if u = 5 ∨ u = 6 then 7 else 0
      state := .running
      timeSlice := 0
      timeSliceDefault := 20
      registers := () }
  activeTicks _ := 0

def pairStart : State 2 Unit where
  cpu := ![pairCpu 5 1, pairCpu 6 2]
  loaded _ := some 7
  switching _ := none
  dead := []
  deadLock := false
  spaceDeleted _ := false
  processDeleted _ := false
  ending := .stop [6] []
  gc := .idle

theorem pairStart_initial : Initial pair pairStart := by
  refine ⟨fun c o ↦ ?_, fun c ↦ ?_, fun c q hl ↦ ?_, rfl, rfl, by decide, by decide,
    by decide, ?_, ?_,
    rfl, rfl⟩
  · fin_cases c <;> fin_cases o <;> rfl
  · fin_cases c <;> exact ⟨rfl, by decide, by decide, rfl, rfl, by decide⟩
  · fin_cases c <;> cases hl
    · exact ⟨5, rfl, rfl⟩
    · exact ⟨6, rfl, rfl⟩
  · intro q hq
    cases hq
  · intro q hq
    simp [pairStart] at hq

/-- `end_process` gets on, and the other CPU leaves its thread. -/
def pairEnd (k : ℕ) : List (Move 2 Unit) :=
  .endProcess true () :: .tick ⟨1, Nat.one_lt_two⟩ () :: List.replicate k (.endProcess true ())

/-- The process is deleted once both CPUs have left it. -/
theorem safe_collection_pair : ∃ s : State 2 Unit, s.processDeleted 7 = true ∧ Safe s := by
  have hquiet : ∀ m ∈ pairEnd 14 ++ [Move.taskSwitch 0, Move.taskSwitch 1], ∀ s,
      ¬ Premature pair s m := by simp [pairEnd, Premature]
  have hstart : (system pair Unit).Reaches (fun s m ↦ ¬ Premature pair s m) pairStart :=
    .initial pairStart_initial
  have hend := hstart.foldlM hquiet (show
    (pairEnd 14 ++ [Move.taskSwitch 0, Move.taskSwitch 1]).foldlM
    (step pair) pairStart = some _ from rfl)
  -- the lock, the head of the loop, and the process on the list
  have hlock := hend.step (not_premature fun _ hgc ↦ GcPc.noConfusion hgc) rfl
  have hloop := hlock.step (not_premature fun _ hgc ↦ GcPc.noConfusion hgc) rfl
  have hspace := hloop.step (not_premature fun _ hgc ↦ GcPc.noConfusion hgc) rfl
  have hgone := hspace.step (m := .gc) (by
    rintro ⟨i, -, hdone | ⟨c, -, t, ht, -⟩⟩
    · exact hdone rfl
    · fin_cases c <;> cases ht) rfl
  have hprocess := hgone.step (not_premature fun _ hgc ↦ GcPc.noConfusion hgc) rfl
  exact ⟨_, rfl, safe_collection pair _ hprocess⟩

/-- `gc` deletes the address space right after `end_process` has put the process on the list; and,
when `end_process` is done, while the other CPU is between `schedule` and `task_switch`. -/
theorem collected_in_use :
    (∃ s, (system pair Unit).Reaches (fun _ _ ↦ True) s ∧ s.ending = .test ∧ ¬ Safe s) ∧
    ∃ s, (system pair Unit).Reaches (fun _ _ ↦ True) s ∧ s.ending = .finished ∧ ¬ Safe s := by
  have hstart : (system pair Unit).Reaches (fun _ _ ↦ True) pairStart := .initial pairStart_initial
  have hany {moves : List (Move 2 Unit)} : ∀ m ∈ moves, ∀ s : State 2 Unit, True :=
    fun _ _ _ ↦ trivial
  constructor
  · have hreach := hstart.foldlM hany (show (pairEnd 9 ++ Move.taskSwitch 1 ::
      List.replicate 4 Move.gc).foldlM (step pair) pairStart = some _ from rfl)
    exact ⟨_, hreach, rfl, fun hsafe ↦ (hsafe 7 (.inl rfl) 0).1 rfl⟩
  · have hreach := hstart.foldlM hany (show (pairEnd 14 ++
      List.replicate 4 Move.gc).foldlM (step pair) pairStart = some _ from rfl)
    exact ⟨_, hreach, rfl, fun hsafe ↦ (hsafe 7 (.inl rfl) 1).1 rfl⟩

end Gc

end Borrrdex
