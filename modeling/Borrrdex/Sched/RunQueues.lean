import Borrrdex.Lib.OwnContexts
import Borrrdex.Lib.Runs
import Borrrdex.Sched.Gc
import Borrrdex.Sched.RoundRobin
import Mathlib.Tactic

/-!
# The run queues of all processors

The processors execute, each its current thread, and call `schedule` on a tick, an IPI or a `yield`.
Meanwhile `insert_new_thread` looks for the shortest run queue and puts a new thread there, and
`end_process` takes the threads of a process out of the queues.  `step` lets any of them get on.

`schedule` and `end_process` hold the lock of the queue that they change.  `insert_new_thread` does
not: `lock_t l(c->run_queue_lock)` declares a variable `l` and copies the word into it.  So what the
lock would see to is a condition on the runs here (`Alone`), and without it a count goes wrong
(`count_lost`).

A thread is in one queue at most, and current on one processor at most (`InOrder.step`).  That is
why the few processors do for the threads what a processor for each of them would do: `refines_step`
replays every step on contexts that the threads have to themselves.

`live` are the registers of a processor.  The thread that is leaving a queue is dying, or deleted by
`remove_threads`, which `Sched.RemoveThreads` shows to be `removeThreads`.
-/

set_option autoImplicit false

namespace Borrrdex

namespace Cpu

variable {ρ : Type} {c : Cpu ρ}

/-! ## What `schedule` does to queue and registers -/

/-- What a call of `schedule` comes to. -/
inductive Switch (c : Cpu ρ) (regs : ρ) : Cpu ρ × Option (ℕ × ρ) → Prop
  /-- The current thread goes on. -/
  | stay {c' : Cpu ρ} (current : c'.currentThread = c.currentThread)
      (queue : c'.runQueue = c.runQueue)
      (registers : ∀ t, (c'.threads t).registers = (c.threads t).registers) :
      Switch c regs (c', none)
  /-- The current thread is put aside, if it is not the idle thread. -/
  | next {c' : Cpu ρ} {d : ℕ} (alive : ∀ t ∈ c.currentThread, c.state t ≠ .dying)
      (current : c'.currentThread = some d)
      (queue : c'.runQueue = c.runQueue)
      (registers : ∀ t, (c'.threads t).registers =
        if c.currentThread = some t ∧ t ∈ c.runQueue then regs else (c.threads t).registers) :
      Switch c regs (c', some (d, (c'.threads d).registers))
  /-- The current thread is dying. -/
  | dying {c' : Cpu ρ} {t : ℕ} (dying : c.currentThread = some t ∧ c.state t = .dying)
      (mem : t ∈ c.runQueue)
      (current : c'.currentThread = some c.idleThread)
      (queue : c'.runQueue = c.runQueue.erase t)
      (registers : ∀ t, (c'.threads t).registers = (c.threads t).registers) :
      Switch c regs (c', some (c.idleThread, (c'.threads c.idleThread).registers))

theorem Switch.of_ticks {ticks : ℕ → U64} {regs : ρ} {r : Cpu ρ × Option (ℕ × ρ)}
    (h : Switch { c with activeTicks := ticks } regs r) : Switch c regs r := by
  cases h with
  | stay current queue registers => exact .stay current queue registers
  | next alive current queue registers => exact .next alive current queue registers
  | dying dying mem current queue registers => exact .dying dying mem current queue registers

theorem skipBlocked_of_ne {t : ℕ} (ht : c.currentThread = some t) (h : c.state t ≠ .blocked) :
    c.skipBlocked = c := by
  rw [skipBlocked, ht]
  exact if_neg h

theorem WellFormed.switch_pick (hc : c.WellFormed) (regs : ρ) : Switch c regs
    (c.pick regs,
      (c.pick regs).currentThread.map fun t ↦ (t, ((c.pick regs).threads t).registers)) := by
  obtain ht | ⟨t, ht⟩ := c.currentThread.eq_none_or_eq_some
  · rw [pick_of_none ht]
    exact .next (fun t hcurrent ↦ by simp [ht] at hcurrent) rfl rfl fun t ↦ by simp [ht]
  have hidle : c.state c.idleThread ≠ .dying := ne_of_eq_of_ne hc.idle_state (by decide)
  by_cases hcount : c.runQueueCount = 0
  · have hqueue := hc.runQueue_eq_nil_iff.mpr hcount
    have hcurrent : t = c.idleThread := (hc.current t ht).resolve_left (by simp [hqueue])
    rw [pick_of_count hcount]
    refine .next (fun u hu ↦ ?_) rfl rfl fun u ↦ by simp [hqueue]
    rwa [← Option.some.inj (ht.symm.trans hu), hcurrent]
  rw [pick_eq_leave ht hcount]
  by_cases hdying : c.state t = .dying
  · have hmem : t ∈ c.runQueue := (hc.current t ht).resolve_right fun h ↦ hidle (h ▸ hdying)
    have hblocked : c.state c.idleThread ≠ .blocked := ne_of_eq_of_ne hc.idle_state (by decide)
    let k : Cpu ρ := { c with
      runQueue := c.runQueue.erase t
      runQueueCount := c.runQueueCount - 1
      currentThread := some c.idleThread }
    have hkeep : k.skipBlocked = k := skipBlocked_of_ne rfl hblocked
    rw [leave_of_dying hdying, hkeep]
    exact .dying ⟨ht, hdying⟩ hmem rfl rfl fun _ ↦ rfl
  · have halive : ∀ u ∈ c.currentThread, c.state u ≠ .dying := fun u hu ↦ by
      rwa [← Option.some.inj (ht.symm.trans hu)]
    obtain ⟨d, hd⟩ : ∃ d, (c.leave t regs).skipBlocked.currentThread = some d := by
      rw [← pick_eq_leave ht hcount]
      exact ⟨_, hc.currentThread_pick regs⟩
    obtain ⟨o, hskip⟩ := (c.leave t regs).exists_skipBlocked_eq
    rw [hskip] at hd ⊢
    rw [hd, Option.map_some]
    refine .next halive hd (hc.currentThread_leave ht hdying regs).2.2.1 fun u ↦ ?_
    by_cases hidle : t = c.idleThread
    · rw [leave_of_parent_eq hdying (hidle ▸ hc.idle_parent), if_neg]
      rintro ⟨hu, hmem⟩
      obtain rfl : t = u := Option.some.inj (ht.symm.trans hu)
      exact hc.idle_notMem (hidle ▸ hmem)
    · have hmem : t ∈ c.runQueue := (hc.current t ht).resolve_right hidle
      rw [leave_of_parent_ne hdying (hc.parent t hmem)]
      dsimp only
      by_cases hut : u = t
      · rw [hut, Function.update_self, if_pos ⟨ht, hmem⟩]
      · rw [Function.update_of_ne hut, if_neg]
        rintro ⟨hu, -⟩
        exact hut (Option.some.inj (hu.symm.trans ht))

/-- **What `schedule` does**, in one of three ways. -/
theorem WellFormed.switch_schedule (hc : c.WellFormed) (regs : ρ) :
    Switch c regs (c.schedule regs) := by
  by_cases hup : ∀ t ∈ c.currentThread, (c.threads t).timeSlice = 0
  · cases hlock : c.runQueueLocked with
    | true =>
      obtain ⟨ticks, hcharge⟩ := charge_of_up hup
      rw [Cpu.schedule, hcharge]
      dsimp only
      rw [if_pos (.inr hlock)]
      exact .stay rfl rfl fun _ ↦ rfl
    | false =>
      obtain ⟨ticks, heq⟩ := schedule_eq hup hlock regs
      rw [heq]
      exact ((hc.setTicks ticks).switch_pick regs).of_ticks
  · push Not at hup
    obtain ⟨t, ht, hne⟩ := hup
    have hpos : 0 < (c.threads t).timeSlice := by bv_omega
    rw [schedule_of_pos ht hpos]
    exact .stay rfl rfl (update_eq Thread.registers rfl)

/-- The run queue may have lost threads; the idle thread and what a thread is are the same. -/
structure Within (c c' : Cpu ρ) : Prop where
  parent : ∀ t, (c'.threads t).parent = (c.threads t).parent
  state : ∀ t, c'.state t = c.state t
  idleProcess : c'.idleProcess = c.idleProcess
  idleThread : c'.idleThread = c.idleThread
  mem : ∀ t ∈ c'.runQueue, t ∈ c.runQueue

theorem within_schedule (c : Cpu ρ) (regs : ρ) : Within c (c.schedule regs).1 :=
  have h := frame_schedule c regs
  ⟨h.parent, h.state, h.idleProcess, h.idleThread, h.mem⟩

/-- A processor, with the count that its queue should have. -/
def counted (c : Cpu ρ) : Cpu ρ :=
  { c with runQueueCount := BitVec.ofNat 64 c.runQueue.length }

theorem WellFormed.counted (hc : c.WellFormed) : c.counted.WellFormed where
  count := by
    have hlt : c.runQueue.length < 2 ^ 64 := hc.count ▸ c.runQueueCount.isLt
    exact (BitVec.toNat_ofNat ..).trans (Nat.mod_eq_of_lt hlt)
  nodup := hc.nodup
  parent := hc.parent
  idle_parent := hc.idle_parent
  idle_state := hc.idle_state
  current := hc.current

/-- Other threads may change as they like. -/
theorem WellFormed.setThreads (hc : c.WellFormed) {threads : ℕ → Thread ρ}
    (hparent : ∀ t, t ∈ c.runQueue ∨ t = c.idleThread →
      (threads t).parent = (c.threads t).parent)
    (hstate : (threads c.idleThread).state = c.state c.idleThread) (ticks : ℕ → U64) :
    ({ c with threads := threads, activeTicks := ticks } : Cpu ρ).WellFormed where
  count := hc.count
  nodup := hc.nodup
  parent t ht := ne_of_eq_of_ne (hparent t (.inl ht)) (hc.parent t ht)
  idle_parent := (hparent _ (.inr rfl)).trans hc.idle_parent
  idle_state := hstate.trans hc.idle_state
  current := hc.current

end Cpu

namespace Processors

open OwnContexts Gc

/-! ## The processors -/

/-- `cpu`, without the threads. -/
structure Core where
  currentThread : Option ℕ
  idleProcess : ℕ
  idleThread : ℕ
  runQueueLocked : Bool
  runQueueCount : U64
  runQueue : List ℕ

/-- Where a call of `insert_new_thread` is. -/
inductive InsertPc (n : ℕ)
  /-- The loop is at a processor, and has chosen another so far. -/
  | choose (i : ℕ) (c : Fin (n + 1))
  /-- `lock_t l(c->run_queue_lock)`, which waits for nothing and locks nothing. -/
  | copyLock (c : Fin (n + 1))
  /-- `push_back` is at work. -/
  | push (c : Fin (n + 1))
  /-- `run_queue_count++` reads the count. -/
  | load (c : Fin (n + 1))
  /-- It writes back what it has made of it. -/
  | store (c : Fin (n + 1)) (count : U64)

namespace InsertPc

variable {n : ℕ}

/-- The processor whose queue is being worked on. -/
def queue : InsertPc n → Option (Fin (n + 1))
  | choose .. | copyLock _ => none
  | push c | load c | store c _ => some c

/-- The thread is in the queue. -/
def linked : InsertPc n → Bool
  | choose .. | copyLock _ | push _ => false
  | load _ | store .. => true

/-- How far `run_queue_count` is behind, for a queue of this length. -/
def Counts (count : U64) (length : ℕ) : InsertPc n → Prop
  | choose .. | copyLock _ => True
  | push _ => count.toNat = length
  | load _ => count.toNat + 1 = length
  | store _ next => next.toNat = length

end InsertPc

/-- The processors and the threads; the calls of `insert_new_thread`, by the thread that is
inserted, and the processes whose threads are being removed from a queue. -/
structure State (n : ℕ) (ρ : Type) where
  core : Fin (n + 1) → Core
  threads : ℕ → Thread ρ
  activeTicks : ℕ → U64
  live : Fin (n + 1) → ρ
  inserting : ℕ → Option (InsertPc n)
  removing : Fin (n + 1) → Option ℕ

variable {n : ℕ} {ρ : Type}

namespace State

/-- What a processor sees. -/
def cpu (s : State n ρ) (c : Fin (n + 1)) : Cpu ρ where
  currentThread := (s.core c).currentThread
  idleProcess := (s.core c).idleProcess
  idleThread := (s.core c).idleThread
  runQueueLocked := (s.core c).runQueueLocked
  runQueueCount := (s.core c).runQueueCount
  runQueue := (s.core c).runQueue
  threads := s.threads
  activeTicks := s.activeTicks

/-- What it has done. -/
def put (s : State n ρ) (c : Fin (n + 1)) (k : Cpu ρ) : State n ρ :=
  { s with
    core := Function.update s.core c
      { currentThread := k.currentThread
        idleProcess := k.idleProcess
        idleThread := k.idleThread
        runQueueLocked := k.runQueueLocked
        runQueueCount := k.runQueueCount
        runQueue := k.runQueue }
    threads := k.threads
    activeTicks := k.activeTicks }

/-- A thread that is on its way to a queue. -/
def Waits (s : State n ρ) (t : ℕ) : Prop := ((s.inserting t).any fun pc ↦ !pc.linked) = true

instance (s : State n ρ) (t : ℕ) : Decidable (s.Waits t) := inferInstanceAs (Decidable (_ = _))

/-- A thread that is in a queue or on its way there. -/
def There (s : State n ρ) (t : ℕ) : Prop := s.Waits t ∨ ∃ c, t ∈ (s.cpu c).runQueue

instance (s : State n ρ) (t : ℕ) : Decidable (s.There t) :=
  inferInstanceAs (Decidable (_ ∨ _))

/-- The call that inserts a thread is at work on the queue of a processor. -/
def At (s : State n ρ) (t : ℕ) (c : Fin (n + 1)) : Prop :=
  (s.inserting t).bind InsertPc.queue = some c

end State

/-- What may happen. -/
inductive Act (n : ℕ) (ρ : Type)
  /-- A processor executes an instruction. -/
  | exec (c : Fin (n + 1)) (f : ρ → ρ)
  /-- A tick, an IPI, or `int 0xFD`. -/
  | schedule (c : Fin (n + 1))
  /-- The state and the time of a thread, as `block`, `unblock`, `yield` or `end_process`
  write them. -/
  | write (t : ℕ) (state : ThreadState) (timeSlice timeSliceDefault : U32)
  /-- `insert_new_thread` is called with a new thread. -/
  | insert (t : ℕ) (thread : Thread ρ)
  /-- It gets on. -/
  | advance (t : ℕ)
  /-- `end_process` acquires the lock of a run queue. -/
  | lock (c : Fin (n + 1)) (proc : ℕ)
  /-- `remove_threads`, and the lock is released. -/
  | remove (c : Fin (n + 1))

/-- The loop of `insert_new_thread` looks at a processor. -/
def choose (s : State n ρ) (i : ℕ) (c : Fin (n + 1)) : InsertPc n :=
  if h : i < n + 1 then
    let next : Fin (n + 1) := ⟨i, h⟩
    let c := if (s.cpu next).runQueueCount < (s.cpu c).runQueueCount then next else c
    if (s.cpu c).runQueueCount = 0 then .copyLock c else .choose (i + 1) c
  else .copyLock c

/-- `insert_new_thread` gets on. -/
def advance (s : State n ρ) (t : ℕ) : Option (State n ρ) :=
  match s.inserting t with
  | none => none
  | some (.choose i c) =>
    some { s with inserting := Function.update s.inserting t (some (choose s i c)) }
  | some (.copyLock c) =>
    some { s with inserting := Function.update s.inserting t (some (.push c)) }
  | some (.push c) =>
    some { s.put c { s.cpu c with runQueue := (s.cpu c).runQueue ++ [t] } with
      inserting := Function.update s.inserting t (some (.load c)) }
  | some (.load c) =>
    some { s with
      inserting := Function.update s.inserting t (some (.store c ((s.cpu c).runQueueCount + 1))) }
  | some (.store c count) =>
    some { s.put c { s.cpu c with runQueueCount := count } with
      inserting := Function.update s.inserting t none }

/-- A new thread is not the idle thread of a processor, and none of its process. -/
def New (s : State n ρ) (t : ℕ) (thread : Thread ρ) : Prop :=
  (s.inserting t).isNone ∧ ¬ s.There t ∧ 0 < t ∧ t < 2 ^ 64 ∧
    ∀ c, t ≠ (s.cpu c).idleThread ∧ thread.parent ≠ (s.cpu c).idleProcess

instance (s : State n ρ) (t : ℕ) (thread : Thread ρ) : Decidable (New s t thread) :=
  inferInstanceAs (Decidable (_ ∧ _))

/-- What happens, if it may. -/
def step (s : State n ρ) : Act n ρ → Option (State n ρ)
  | .exec c f => some { s with live := Function.update s.live c (f (s.live c)) }
  | .schedule c =>
    match (s.cpu c).schedule (s.live c) with
    | (k, none) => some (s.put c k)
    | (k, some (_, regs)) => some { s.put c k with live := Function.update s.live c regs }
  | .write t state timeSlice timeSliceDefault =>
    if ∀ c, t ≠ (s.cpu c).idleThread then
      some { s with threads := Function.update s.threads t { s.threads t with
        state := state
        timeSlice := timeSlice
        timeSliceDefault := timeSliceDefault } }
    else none
  | .insert t thread =>
    if New s t thread then
      some { s with
        threads := Function.update s.threads t thread
        inserting := Function.update s.inserting t (some (.choose 1 0)) }
    else none
  | .advance t => advance s t
  | .lock c proc =>
    if (s.cpu c).runQueueLocked then none
    else
      some { s.put c { s.cpu c with runQueueLocked := true } with
        removing := Function.update s.removing c (some proc) }
  | .remove c =>
    match s.removing c with
    | none => none
    | some proc =>
      some { s.put c { removeThreads proc (s.cpu c) with runQueueLocked := false } with
        removing := Function.update s.removing c none }

/-- Many things, one after the other. -/
def run (s : State n ρ) (acts : List (Act n ρ)) : Option (State n ρ) := acts.foldlM step s

/-- `scheduler::initialize` has given each processor an idle thread of its own, and no other. -/
structure Started (s : State n ρ) : Prop where
  runQueue : ∀ c, (s.cpu c).runQueue = []
  runQueueCount : ∀ c, (s.cpu c).runQueueCount = 0
  currentThread : ∀ c, (s.cpu c).currentThread = none
  idleThread : ∀ c d, (s.cpu c).idleThread = (s.cpu d).idleThread → c = d
  idleProcess : ∀ c, (s.threads (s.cpu c).idleThread).parent = (s.cpu c).idleProcess
  running : ∀ c, (s.threads (s.cpu c).idleThread).state = .running
  inserting : ∀ t, s.inserting t = none

/-- The processors as a system. -/
def processors (n : ℕ) (ρ : Type) : Machine (State n ρ) (Act n ρ) where
  initial := Started
  step := step

/-- **What the lock would see to**: as long as a call of `insert_new_thread` is at work on a queue,
no other call is and `end_process` does not hold the lock, and the processor does not get into
`schedule`. -/
def Alone (s : State n ρ) : Act n ρ → Prop
  | .schedule c | .lock c _ | .remove c => ∀ t, ¬ s.At t c
  | .advance t => ∀ c, s.inserting t = some (.copyLock c) →
    (s.cpu c).runQueueLocked = false ∧ ∀ u, ¬ s.At u c
  | .exec .. | .write .. | .insert .. => True

/-! ## The queues in order -/

/-- The counts are right, but where a thread is being inserted, which is one for each queue. -/
structure Counted (s : State n ρ) : Prop where
  count : ∀ c, (∀ t, ¬ s.At t c) → (s.cpu c).runQueueCount.toNat = (s.cpu c).runQueue.length
  single : ∀ t u c, s.At t c → s.At u c → t = u
  counts : ∀ t c pc, s.inserting t = some pc → pc.queue = some c →
    pc.Counts (s.cpu c).runQueueCount (s.cpu c).runQueue.length

/-- **The queues are in order**: each processor is, with the right count, and a thread is in one
queue at most. -/
structure InOrder (s : State n ρ) : Prop where
  wellFormed : ∀ c, (s.cpu c).counted.WellFormed
  apart : ∀ c d t, t ∈ (s.cpu c).runQueue → t ∈ (s.cpu d).runQueue → c = d
  idle : ∀ c d, (s.cpu c).idleThread = (s.cpu d).idleThread → c = d
  parent : ∀ t, s.There t → ∀ c, (s.threads t).parent ≠ (s.cpu c).idleProcess
  waits : ∀ t, s.Waits t → ∀ c, t ∉ (s.cpu c).runQueue
  address : ∀ t, s.There t → 0 < t ∧ t < 2 ^ 64
  counted : Counted s

variable {s s' : State n ρ} {c d : Fin (n + 1)} {t : ℕ} {k : Cpu ρ}

namespace State

@[simp] theorem cpu_put_self (s : State n ρ) (c : Fin (n + 1)) (k : Cpu ρ) :
    (s.put c k).cpu c = k := by
  simp [cpu, put]

theorem cpu_put_of_ne (h : d ≠ c) : (s.put c k).cpu d =
    { s.cpu d with threads := k.threads, activeTicks := k.activeTicks } := by
  simp [cpu, put, Function.update_of_ne h]

theorem mem_put (hmem : ∀ u ∈ k.runQueue, u ∈ (s.cpu c).runQueue)
    (h : t ∈ ((s.put c k).cpu d).runQueue) : t ∈ (s.cpu d).runQueue := by
  by_cases hd : d = c
  · subst hd
    rw [cpu_put_self] at h
    exact hmem t h
  · rwa [cpu_put_of_ne hd] at h

theorem idleThread_put (h : k.idleThread = (s.cpu c).idleThread) (d : Fin (n + 1)) :
    ((s.put c k).cpu d).idleThread = (s.cpu d).idleThread := by
  by_cases hd : d = c
  · rw [hd, cpu_put_self, h]
  · rw [cpu_put_of_ne hd]

theorem idleProcess_put (h : k.idleProcess = (s.cpu c).idleProcess) (d : Fin (n + 1)) :
    ((s.put c k).cpu d).idleProcess = (s.cpu d).idleProcess := by
  by_cases hd : d = c
  · rw [hd, cpu_put_self, h]
  · rw [cpu_put_of_ne hd]

theorem currentThread_put (h : k.currentThread = (s.cpu c).currentThread) (d : Fin (n + 1)) :
    ((s.put c k).cpu d).currentThread = (s.cpu d).currentThread := by
  by_cases hd : d = c
  · rw [hd, cpu_put_self, h]
  · rw [cpu_put_of_ne hd]

theorem runQueue_put (h : k.runQueue = (s.cpu c).runQueue) (d : Fin (n + 1)) :
    ((s.put c k).cpu d).runQueue = (s.cpu d).runQueue := by
  by_cases hd : d = c
  · rw [hd, cpu_put_self, h]
  · rw [cpu_put_of_ne hd]

theorem there_of_put (hmem : ∀ u ∈ k.runQueue, u ∈ (s.cpu c).runQueue)
    (h : (s.put c k).There t) : s.There t :=
  h.imp id fun ⟨d, hd⟩ ↦ ⟨d, mem_put hmem hd⟩

theorem there_of_mem (h : t ∈ (s.cpu c).runQueue) : s.There t := .inr ⟨c, h⟩

theorem at_of_eq {pc : InsertPc n} (h : s.inserting t = some pc) :
    s.At t c ↔ pc.queue = some c := by
  rw [At, h, Option.bind_some]

theorem waits_congr (h : s'.inserting t = s.inserting t) : s'.Waits t ↔ s.Waits t := by
  rw [Waits, Waits, h]

theorem not_waits (h : s.inserting t = none) : ¬ s.Waits t := by
  rw [Waits, h]
  exact Bool.false_ne_true

theorem waits_of_eq {pc : InsertPc n} (h : s.inserting t = some pc) :
    s.Waits t ↔ pc.linked = false := by
  rw [Waits, h, Option.any_some, Bool.not_eq_true']

end State

/-! ## The counts -/

namespace Counted

/-- A processor that no thread is being inserted at does something to its queue. -/
theorem put (hs : Counted s) (hat : ∀ t, ¬ s.At t c)
    (hk : k.runQueueCount.toNat = k.runQueue.length) : Counted (s.put c k) where
  count d hd := by
    by_cases hdc : d = c
    · rw [hdc, State.cpu_put_self]
      exact hk
    · rw [State.cpu_put_of_ne hdc]
      exact hs.count d hd
  single := hs.single
  counts t d pc hpc hqueue := by
    have hdc : d ≠ c := by
      rintro rfl
      exact hat t ((State.at_of_eq hpc).mpr hqueue)
    rw [State.cpu_put_of_ne hdc]
    exact hs.counts t d pc hpc hqueue

/-- A call of `insert_new_thread` gets on, without changing a queue or a count. -/
theorem setPc (hs : Counted s) {pc : InsertPc n} (hleave : ∀ c, s.At t c → pc.queue = some c)
    (henter : ∀ c, pc.queue = some c → ∀ u, s.At u c → u = t)
    (hcounts : ∀ c, pc.queue = some c →
      pc.Counts (s.cpu c).runQueueCount (s.cpu c).runQueue.length) :
    Counted { s with inserting := Function.update s.inserting t (some pc) } := by
  set s' : State n ρ := { s with inserting := Function.update s.inserting t (some pc) } with hs'
  have hself : s'.inserting t = some pc := Function.update_self ..
  have hne : ∀ u, u ≠ t → s'.inserting u = s.inserting u := fun u hu ↦
    Function.update_of_ne hu ..
  have hat : ∀ u d, u ≠ t → (s'.At u d ↔ s.At u d) := fun u d hu ↦ by
    rw [State.At, State.At, hne u hu]
  refine ⟨fun d hd ↦ hs.count d fun u hu ↦ ?_, fun u v d hu hv ↦ ?_, fun u d pc' hpc hqueue ↦ ?_⟩
  · by_cases hut : u = t
    · exact hd t ((State.at_of_eq hself).mpr (hleave d (hut ▸ hu)))
    · exact hd u ((hat u d hut).mpr hu)
  · by_cases hut : u = t
    · by_cases hvt : v = t
      · rw [hut, hvt]
      · have hqueue := (State.at_of_eq hself).mp (hut ▸ hu)
        exact absurd (henter d hqueue v ((hat v d hvt).mp hv)) hvt
    · by_cases hvt : v = t
      · have hqueue := (State.at_of_eq hself).mp (hvt ▸ hv)
        exact absurd (henter d hqueue u ((hat u d hut).mp hu)) hut
      · exact hs.single u v d ((hat u d hut).mp hu) ((hat v d hvt).mp hv)
  · by_cases hut : u = t
    · rw [hut, hself] at hpc
      cases hpc
      exact hcounts d hqueue
    · rw [hne u hut] at hpc
      exact hs.counts u d pc' hpc hqueue

/-- A call of `insert_new_thread` does something to the queue that it is at. -/
theorem atQueue (hs : Counted s) (ht : s.At t c) {next : Option (InsertPc n)}
    (hstays : ∀ d, next.bind InsertPc.queue = some d → d = c)
    (hcount : next.bind InsertPc.queue = none → k.runQueueCount.toNat = k.runQueue.length)
    (hcounts : ∀ pc, next = some pc → pc.Counts k.runQueueCount k.runQueue.length) :
    Counted { s.put c k with inserting := Function.update s.inserting t next } := by
  set s' : State n ρ := { s.put c k with inserting := Function.update s.inserting t next } with hs'
  have hself : s'.inserting t = next := Function.update_self ..
  have hne : ∀ u, u ≠ t → s'.inserting u = s.inserting u := fun u hu ↦
    Function.update_of_ne hu ..
  have hat : ∀ u d, u ≠ t → (s'.At u d ↔ s.At u d) := fun u d hu ↦ by
    rw [State.At, State.At, hne u hu]
  have hatself : ∀ d, s'.At t d ↔ next.bind InsertPc.queue = some d := fun d ↦ by
    rw [State.At, hself]
  have hother : ∀ u d, u ≠ t → s.At u d → d ≠ c := fun u d hut hu hdc ↦
    hut (hs.single u t c (hdc ▸ hu) ht)
  have hcpu : s'.cpu c = k := State.cpu_put_self ..
  have hcpune : ∀ d, d ≠ c → s'.cpu d =
      { s.cpu d with threads := k.threads, activeTicks := k.activeTicks } := fun d hd ↦
    State.cpu_put_of_ne hd
  refine ⟨fun d hd ↦ ?_, fun u v d hu hv ↦ ?_, fun u d pc hpc hqueue ↦ ?_⟩
  · by_cases hdc : d = c
    · rw [hdc, hcpu]
      refine hcount (Option.eq_none_iff_forall_ne_some.mpr fun e he ↦ hd t ?_)
      rw [hatself, he, hstays e he, hdc]
    · rw [hcpune d hdc]
      refine hs.count d fun u hu ↦ ?_
      by_cases hut : u = t
      · have hcd : some c = some d := ht.symm.trans (hut ▸ hu)
        exact hdc (Option.some.inj hcd).symm
      · exact hd u ((hat u d hut).mpr hu)
  · by_cases hut : u = t
    · by_cases hvt : v = t
      · rw [hut, hvt]
      · have hdc := hstays d ((hatself d).mp (hut ▸ hu))
        exact absurd hdc (hother v d hvt ((hat v d hvt).mp hv))
    · by_cases hvt : v = t
      · have hdc := hstays d ((hatself d).mp (hvt ▸ hv))
        exact absurd hdc (hother u d hut ((hat u d hut).mp hu))
      · exact hs.single u v d ((hat u d hut).mp hu) ((hat v d hvt).mp hv)
  · by_cases hut : u = t
    · rw [hut, hself] at hpc
      have hdc := hstays d (by rw [hpc]; exact hqueue)
      rw [hdc, hcpu]
      exact hcounts pc hpc
    · rw [hne u hut] at hpc
      have hdc := hother u d hut ((State.at_of_eq hpc).mpr hqueue)
      rw [hcpune d hdc]
      exact hs.counts u d pc hpc hqueue

end Counted

namespace InOrder

theorem nodup (hs : InOrder s) (c : Fin (n + 1)) : (s.cpu c).runQueue.Nodup :=
  (hs.wellFormed c).nodup

/-- A processor that no thread is being inserted at has the right count. -/
theorem wellFormed_cpu (hs : InOrder s) (hat : ∀ t, ¬ s.At t c) : (s.cpu c).WellFormed :=
  have h := hs.wellFormed c
  ⟨hs.counted.count c hat, h.nodup, h.parent, h.idle_parent, h.idle_state, h.current⟩

theorem ne_idleThread (hs : InOrder s) (ht : s.There t) (c : Fin (n + 1)) :
    t ≠ (s.cpu c).idleThread := by
  rintro rfl
  exact hs.parent _ ht c (hs.wellFormed c).idle_parent

theorem mem_of_current (hs : InOrder s) (ht : s.There t)
    (hc : (s.cpu c).currentThread = some t) : t ∈ (s.cpu c).runQueue :=
  ((hs.wellFormed c).current t hc).resolve_right (hs.ne_idleThread ht c)

/-- **A thread is current on one processor at most.** -/
theorem current_unique (hs : InOrder s) (hc : (s.cpu c).currentThread = some t)
    (hd : (s.cpu d).currentThread = some t) : c = d := by
  by_cases ht : s.There t
  · exact hs.apart c d t (hs.mem_of_current ht hc) (hs.mem_of_current ht hd)
  · have hidle : ∀ e, (s.cpu e).currentThread = some t → t = (s.cpu e).idleThread := fun e he ↦
      ((hs.wellFormed e).current t he).resolve_left fun hmem ↦ ht (State.there_of_mem hmem)
    exact hs.idle c d ((hidle c hc).symm.trans (hidle d hd))

/-- A queue loses threads, or something else happens to a processor. -/
theorem put (hs : InOrder s) (hat : ∀ t, ¬ s.At t c) (hk : k.WellFormed)
    (hwithin : Cpu.Within (s.cpu c) k) : InOrder (s.put c k) where
  wellFormed d := by
    by_cases hd : d = c
    · rw [hd, State.cpu_put_self]
      exact hk.counted
    · rw [State.cpu_put_of_ne hd]
      exact (hs.wellFormed d).setThreads (fun t _ ↦ hwithin.parent t) (hwithin.state _) _
  apart d e t hd he := hs.apart d e t (State.mem_put hwithin.mem hd) (State.mem_put hwithin.mem he)
  idle d e h := by
    rw [State.idleThread_put hwithin.idleThread, State.idleThread_put hwithin.idleThread] at h
    exact hs.idle d e h
  parent t ht d := by
    rw [State.idleProcess_put hwithin.idleProcess]
    exact ne_of_eq_of_ne (hwithin.parent t) (hs.parent t (State.there_of_put hwithin.mem ht) d)
  waits t ht d hmem := hs.waits t ht d (State.mem_put hwithin.mem hmem)
  address t ht := hs.address t (State.there_of_put hwithin.mem ht)
  counted := hs.counted.put hat hk.count

/-- `insert_new_thread` is at another place. -/
theorem setPc (hs : InOrder s) {pc : InsertPc n} (hwaits : pc.linked = false → s.Waits t)
    (hcounted : Counted { s with inserting := Function.update s.inserting t (some pc) }) :
    InOrder { s with inserting := Function.update s.inserting t (some pc) } := by
  set s' : State n ρ := { s with inserting := Function.update s.inserting t (some pc) } with hs'
  have hback : ∀ u, s'.Waits u → s.Waits u := fun u hu ↦ by
    by_cases hut : u = t
    · subst hut
      exact hwaits ((State.waits_of_eq (Function.update_self ..)).mp hu)
    · exact (State.waits_congr (Function.update_of_ne hut ..)).mp hu
  exact {
    wellFormed := hs.wellFormed
    apart := hs.apart
    idle := hs.idle
    parent := fun u hu ↦ hs.parent u (hu.imp_left (hback u))
    waits := fun u hu ↦ hs.waits u (hback u hu)
    address := fun u hu ↦ hs.address u (hu.imp_left (hback u))
    counted := hcounted }

/-- A queue has room for another thread: threads have addresses. -/
theorem length_lt (hs : InOrder s) (ht : s.There t) (hnotMem : t ∉ (s.cpu c).runQueue) :
    (s.cpu c).runQueue.length + 1 < 2 ^ 64 := by
  have hnodup : (t :: (s.cpu c).runQueue).Nodup :=
    List.nodup_cons.mpr ⟨hnotMem, (hs.wellFormed c).nodup⟩
  have hsub : (t :: (s.cpu c).runQueue).toFinset ⊆ Finset.Ioo 0 (2 ^ 64) := by
    intro u hu
    rw [List.mem_toFinset] at hu
    rw [Finset.mem_Ioo]
    obtain rfl | hu := List.mem_cons.mp hu
    · exact hs.address u ht
    · exact hs.address u (State.there_of_mem hu)
  have hcard := Finset.card_le_card hsub
  rw [List.toFinset_card_of_nodup hnodup, List.length_cons, Nat.card_Ioo] at hcard
  omega

theorem runQueue_length_lt (hs : InOrder s) (c : Fin (n + 1)) :
    (s.cpu c).runQueue.length < 2 ^ 64 :=
  (hs.wellFormed c).count ▸ (s.cpu c).counted.runQueueCount.isLt

/-- A thread gets to its queue. -/
theorem push (hs : InOrder s) (hpc : s.inserting t = some (.push c)) : InOrder
    { s.put c { s.cpu c with runQueue := (s.cpu c).runQueue ++ [t] } with
      inserting := Function.update s.inserting t (some (.load c)) } := by
  have ht : s.Waits t := (State.waits_of_eq hpc).mpr rfl
  have hthere : s.There t := .inl ht
  have hnotMem : t ∉ (s.cpu c).runQueue := hs.waits t ht c
  have hlength := hs.length_lt hthere hnotMem
  have hcount : (s.cpu c).runQueueCount.toNat = (s.cpu c).runQueue.length :=
    hs.counted.counts t c _ hpc rfl
  let k : Cpu ρ := { s.cpu c with runQueue := (s.cpu c).runQueue ++ [t] }
  have hklength : k.runQueue.length = (s.cpu c).runQueue.length + 1 := List.length_append
  have hk : k.counted.WellFormed :=
    have h := (hs.wellFormed c).insertNewThread hnotMem (hs.parent t hthere c) hlength
    ⟨by
      show (BitVec.ofNat 64 k.runQueue.length).toNat = k.runQueue.length
      rw [BitVec.toNat_ofNat, Nat.mod_eq_of_lt (by omega)],
      h.nodup, h.parent, h.idle_parent, h.idle_state, h.current⟩
  have hmem : ∀ d u, u ∈ ((s.put c k).cpu d).runQueue →
      u ∈ (s.cpu d).runQueue ∨ u = t ∧ d = c := fun d u hu ↦ by
    by_cases hd : d = c
    · subst hd
      rw [State.cpu_put_self] at hu
      exact (List.mem_append.mp hu).imp_right fun h ↦ ⟨List.mem_singleton.mp h, rfl⟩
    · rw [State.cpu_put_of_ne hd] at hu
      exact .inl hu
  set s' : State n ρ := { s.put c k with
    inserting := Function.update s.inserting t (some (.load c)) } with hs'
  have hwaits : ∀ u, s'.Waits u → u ≠ t ∧ s.Waits u := fun u hu ↦ by
    by_cases hut : u = t
    · subst hut
      exact nomatch (State.waits_of_eq (Function.update_self ..)).mp hu
    · exact ⟨hut, (State.waits_congr (Function.update_of_ne hut ..)).mp hu⟩
  have hback : ∀ u, s'.There u → s.There u := fun u hu ↦ by
    obtain hu | ⟨d, hd⟩ := hu
    · exact .inl (hwaits u hu).2
    · obtain hd | ⟨rfl, -⟩ := hmem d u hd
      · exact State.there_of_mem hd
      · exact hthere
  exact {
    wellFormed := fun d ↦ by
      by_cases hd : d = c
      · subst hd
        have h : (s.put d k).cpu d = k := State.cpu_put_self ..
        exact h ▸ hk
      · have h : (s.put c k).cpu d = s.cpu d := State.cpu_put_of_ne hd
        exact h ▸ hs.wellFormed d
    apart := fun d e u hd he ↦ by
      obtain hdu | ⟨hut, hdc⟩ := hmem d u hd
      · obtain heu | ⟨hut, -⟩ := hmem e u he
        · exact hs.apart d e u hdu heu
        · exact absurd (hut ▸ hdu) (hs.waits t ht d)
      · obtain heu | ⟨-, hec⟩ := hmem e u he
        · exact absurd (hut ▸ heu) (hs.waits t ht e)
        · rw [hdc, hec]
    idle := fun d e h ↦ by
      have hsame : ∀ e, ((s.put c k).cpu e).idleThread = (s.cpu e).idleThread :=
        State.idleThread_put rfl
      exact hs.idle d e ((hsame d).symm.trans (h.trans (hsame e)))
    parent := fun u hu d ↦ by
      have hsame : ((s.put c k).cpu d).idleProcess = (s.cpu d).idleProcess :=
        State.idleProcess_put (k := k) rfl d
      exact ne_of_ne_of_eq (hs.parent u (hback u hu) d) hsame.symm
    waits := fun u hu d hd ↦ by
      obtain ⟨hut, hu⟩ := hwaits u hu
      obtain hd | ⟨rfl, -⟩ := hmem d u hd
      · exact hs.waits u hu d hd
      · exact hut rfl
    address := fun u hu ↦ hs.address u (hback u hu)
    counted := hs.counted.atQueue ((State.at_of_eq hpc).mpr rfl)
      (fun d hd ↦ (Option.some.inj hd).symm) (fun h ↦ nomatch h) fun pc h ↦ by
        cases h
        show (s.cpu c).runQueueCount.toNat + 1 = k.runQueue.length
        rw [hcount, hklength] }

/-- And is counted. -/
theorem store (hs : InOrder s) {count : U64} (hpc : s.inserting t = some (.store c count)) : InOrder
    { s.put c { s.cpu c with runQueueCount := count } with
      inserting := Function.update s.inserting t none } := by
  let k : Cpu ρ := { s.cpu c with runQueueCount := count }
  set s' : State n ρ := { s.put c k with inserting := Function.update s.inserting t none } with hs'
  have hqueue : ∀ d, (s'.cpu d).runQueue = (s.cpu d).runQueue := State.runQueue_put (k := k) rfl
  have hwaits : ∀ u, s'.Waits u → s.Waits u := fun u hu ↦ by
    by_cases hut : u = t
    · exact absurd (hut ▸ hu) (State.not_waits (Function.update_self ..))
    · exact (State.waits_congr (Function.update_of_ne hut ..)).mp hu
  have hback : ∀ u, s'.There u → s.There u := fun u hu ↦
    hu.imp (hwaits u) fun ⟨d, hd⟩ ↦ ⟨d, hqueue d ▸ hd⟩
  exact {
    wellFormed := fun d ↦ by
      by_cases hd : d = c
      · subst hd
        have h : (s.put d k).cpu d = k := State.cpu_put_self ..
        have hk : k.counted = (s.cpu d).counted := rfl
        exact h ▸ hk ▸ hs.wellFormed d
      · have h : (s.put c k).cpu d = s.cpu d := State.cpu_put_of_ne hd
        exact h ▸ hs.wellFormed d
    apart := fun d e u hd he ↦ hs.apart d e u (hqueue d ▸ hd) (hqueue e ▸ he)
    idle := fun d e h ↦ by
      have hsame : ∀ e, ((s.put c k).cpu e).idleThread = (s.cpu e).idleThread :=
        State.idleThread_put rfl
      exact hs.idle d e ((hsame d).symm.trans (h.trans (hsame e)))
    parent := fun u hu d ↦ by
      have hsame : ((s.put c k).cpu d).idleProcess = (s.cpu d).idleProcess :=
        State.idleProcess_put (k := k) rfl d
      exact ne_of_ne_of_eq (hs.parent u (hback u hu) d) hsame.symm
    waits := fun u hu d hd ↦ hs.waits u (hwaits u hu) d (hqueue d ▸ hd)
    address := fun u hu ↦ hs.address u (hback u hu)
    counted := hs.counted.atQueue ((State.at_of_eq hpc).mpr rfl) (fun d hd ↦ nomatch hd)
      (fun _ ↦ hs.counted.counts t c _ hpc rfl) fun pc h ↦ nomatch h }

theorem setLock (hs : InOrder s) (hat : ∀ t, ¬ s.At t c) (locked : Bool) :
    InOrder (s.put c { s.cpu c with runQueueLocked := locked }) :=
  have h := hs.wellFormed_cpu hat
  hs.put hat ⟨h.count, h.nodup, h.parent, h.idle_parent, h.idle_state, h.current⟩
    ⟨fun _ ↦ rfl, fun _ ↦ rfl, rfl, rfl, fun _ h ↦ h⟩

theorem queue_choose (s : State n ρ) (i : ℕ) (c : Fin (n + 1)) :
    (choose s i c).queue = none ∧ (choose s i c).linked = false := by
  unfold choose
  dsimp only
  split_ifs <;> exact ⟨rfl, rfl⟩

theorem advance (hs : InOrder s) (ha : Alone s (.advance t)) (h : advance s t = some s') :
    InOrder s' := by
  unfold Processors.advance at h
  split at h
  · cases h
  · next i c hpc =>
    cases h
    obtain ⟨hqueue, -⟩ := queue_choose s i c
    refine hs.setPc (fun _ ↦ (State.waits_of_eq hpc).mpr rfl) (hs.counted.setPc (fun d hd ↦ ?_)
      (fun d hd ↦ ?_) fun d hd ↦ ?_)
    · exact nomatch (State.at_of_eq hpc).mp hd
    · rw [hqueue] at hd
      cases hd
    · rw [hqueue] at hd
      cases hd
  · next c hpc =>
    cases h
    have hat := (ha c hpc).2
    refine hs.setPc (fun _ ↦ (State.waits_of_eq hpc).mpr rfl) (hs.counted.setPc (fun d hd ↦ ?_)
      (fun d hd u hu ↦ ?_) fun d hd ↦ ?_)
    · exact nomatch (State.at_of_eq hpc).mp hd
    · cases hd
      exact absurd hu (hat u)
    · cases hd
      exact hs.counted.count c hat
  · next c hpc =>
    cases h
    exact hs.push hpc
  · next c hpc =>
    cases h
    have hat : s.At t c := (State.at_of_eq hpc).mpr rfl
    have hcount : (s.cpu c).runQueueCount.toNat + 1 = (s.cpu c).runQueue.length :=
      hs.counted.counts t c _ hpc rfl
    have hlt : (s.cpu c).runQueue.length < 2 ^ 64 := hs.runQueue_length_lt c
    refine hs.setPc (fun h ↦ nomatch h) (hs.counted.setPc (fun d hd ↦ (State.at_of_eq hpc).mp hd)
      (fun d hd u hu ↦ ?_) fun d hd ↦ ?_)
    · cases hd
      exact hs.counted.single u t c hu hat
    · cases hd
      show ((s.cpu c).runQueueCount + 1).toNat = _
      rw [BitVec.toNat_add, ← hcount, Nat.mod_eq_of_lt (by simpa [hcount] using hlt)]
      rfl
  · next c count hpc =>
    cases h
    exact hs.store hpc

theorem removeThreads (hs : InOrder s) (hat : ∀ t, ¬ s.At t c) (proc : ℕ) : InOrder
    (s.put c { Gc.removeThreads proc (s.cpu c) with runQueueLocked := false }) :=
  have h := removeThreads_wellFormed (hs.wellFormed_cpu hat) proc
  hs.put hat ⟨h.count, h.nodup, h.parent, h.idle_parent, h.idle_state, h.current⟩
    ⟨fun _ ↦ rfl, fun _ ↦ rfl, rfl, rfl, fun _ h ↦ (mem_removeThreads.mp h).1⟩

/-- What a thread is may change, but for its process and the state of the idle threads. -/
theorem setThread (hs : InOrder s) {thread : Thread ρ}
    (hparent : thread.parent = (s.threads t).parent)
    (ht : ∀ c, t ≠ (s.cpu c).idleThread) :
    InOrder { s with threads := Function.update s.threads t thread } where
  wellFormed c := (hs.wellFormed c).setThreads
    (fun u _ ↦ Cpu.update_eq Thread.parent hparent u)
    (congrArg Thread.state (Function.update_of_ne (ht c).symm ..)) s.activeTicks
  apart := hs.apart
  idle := hs.idle
  parent u hu c := ne_of_eq_of_ne (Cpu.update_eq Thread.parent hparent u) (hs.parent u hu c)
  waits := hs.waits
  address := hs.address
  counted := ⟨hs.counted.count, hs.counted.single, hs.counted.counts⟩

/-- A new thread is on its way. -/
theorem insert (hs : InOrder s) {thread : Thread ρ} (h : New s t thread) :
    InOrder { s with
      threads := Function.update s.threads t thread
      inserting := Function.update s.inserting t (some (.choose 1 0)) } := by
  obtain ⟨hnone, hnew, hpos, hlt, hidle⟩ := h
  have hwaits : ∀ u, ({ s with
      threads := Function.update s.threads t thread
      inserting := Function.update s.inserting t (some (.choose 1 0)) } : State n ρ).Waits u →
      u = t ∨ u ≠ t ∧ s.Waits u := fun u hu ↦ by
    by_cases hut : u = t
    · exact .inl hut
    · exact .inr ⟨hut, (State.waits_congr (Function.update_of_ne hut ..)).mp hu⟩
  have hthere : ∀ u, ({ s with
      threads := Function.update s.threads t thread
      inserting := Function.update s.inserting t (some (.choose 1 0)) } : State n ρ).There u →
      u = t ∨ u ≠ t ∧ s.There u := fun u hu ↦ by
    by_cases hut : u = t
    · exact .inl hut
    · exact .inr ⟨hut, hu.imp_left fun hu ↦ ((hwaits u hu).resolve_left hut).2⟩
  have hcounted : Counted { s with
      inserting := Function.update s.inserting t (some (.choose 1 0)) } :=
    hs.counted.setPc (fun c hc ↦ by
      rw [State.At, Option.isNone_iff_eq_none.mp hnone] at hc
      cases hc) (fun c hc ↦ nomatch hc) fun c hc ↦ nomatch hc
  exact {
    wellFormed := fun c ↦ (hs.wellFormed c).setThreads
      (fun u hu ↦ congrArg Thread.parent (Function.update_of_ne (by
        rintro rfl
        exact hu.elim (fun hmem ↦ hnew (State.there_of_mem hmem)) (hidle c).1) ..))
      (congrArg Thread.state (Function.update_of_ne (hidle c).1.symm ..)) s.activeTicks
    apart := hs.apart
    idle := hs.idle
    parent := fun u hu c ↦ by
      dsimp only
      obtain rfl | ⟨hut, hu⟩ := hthere u hu
      · rw [Function.update_self]
        exact (hidle c).2
      · rw [Function.update_of_ne hut]
        exact hs.parent u hu c
    waits := fun u hu c hmem ↦ by
      obtain rfl | ⟨-, hu⟩ := hwaits u hu
      · exact hnew (State.there_of_mem hmem)
      · exact hs.waits u hu c hmem
    address := fun u hu ↦ by
      obtain rfl | ⟨-, hu⟩ := hthere u hu
      · exact ⟨hpos, hlt⟩
      · exact hs.address u hu
    counted := ⟨hcounted.count, hcounted.single, hcounted.counts⟩ }

/-- **Whatever happens, the queues stay in order.** -/
theorem step (hs : InOrder s) {a : Act n ρ} (ha : Alone s a) (h : step s a = some s') :
    InOrder s' := by
  cases a with
  | exec c f =>
    cases h
    have hc := hs.counted
    exact ⟨hs.wellFormed, hs.apart, hs.idle, hs.parent, hs.waits, hs.address,
      ⟨hc.count, hc.single, hc.counts⟩⟩
  | schedule c =>
    have hk := hs.put ha ((hs.wellFormed_cpu ha).schedule (s.live c))
      (Cpu.within_schedule (s.cpu c) (s.live c))
    rw [Processors.step] at h
    split at h
    · next k heq =>
      cases h
      rwa [heq] at hk
    · next k _ _ heq =>
      cases h
      rw [heq] at hk
      have hc := hk.counted
      exact ⟨hk.wellFormed, hk.apart, hk.idle, hk.parent, hk.waits, hk.address,
        ⟨hc.count, hc.single, hc.counts⟩⟩
  | write t state timeSlice timeSliceDefault =>
    rw [Processors.step] at h
    split_ifs at h with ht
    cases h
    exact hs.setThread rfl ht
  | insert t thread =>
    rw [Processors.step] at h
    split_ifs at h with hnew
    cases h
    exact hs.insert hnew
  | advance t => exact hs.advance ha h
  | lock c proc =>
    rw [Processors.step] at h
    split_ifs at h
    cases h
    have hk := hs.setLock ha true
    have hc := hk.counted
    exact ⟨hk.wellFormed, hk.apart, hk.idle, hk.parent, hk.waits, hk.address,
      ⟨hc.count, hc.single, hc.counts⟩⟩
  | remove c =>
    rw [Processors.step] at h
    split at h
    · cases h
    · next proc _ =>
      cases h
      have hk := hs.removeThreads ha proc
      have hc := hk.counted
      exact ⟨hk.wellFormed, hk.apart, hk.idle, hk.parent, hk.waits, hk.address,
        ⟨hc.count, hc.single, hc.counts⟩⟩

theorem run (hs : InOrder s) {acts : List (Act n ρ)} (ha : (processors n ρ).Along Alone s acts)
    (h : run s acts = some s') : InOrder s' := by
  induction acts generalizing s with
  | nil =>
    cases h
    exact hs
  | cons a acts ih =>
    obtain ⟨middle, hfirst, hrest⟩ := Option.bind_eq_some_iff.mp h
    exact ih (hs.step ha.1 hfirst) (ha.2 middle hfirst) hrest

end InOrder

theorem Started.not_waits (hs : Started s) (t : ℕ) : ¬ s.Waits t :=
  State.not_waits (hs.inserting t)

theorem Started.not_there (hs : Started s) (t : ℕ) : ¬ s.There t := by
  rintro (h | ⟨c, hc⟩)
  · exact hs.not_waits t h
  · simp [hs.runQueue c] at hc

theorem Started.not_at (hs : Started s) (t : ℕ) (c : Fin (n + 1)) : ¬ s.At t c := by
  simp [State.At, hs.inserting t]

theorem Started.inOrder (hs : Started s) : InOrder s where
  wellFormed c := Cpu.WellFormed.counted
    { count := by rw [hs.runQueue, hs.runQueueCount]; rfl
      nodup := by rw [hs.runQueue]; exact List.nodup_nil
      parent := by simp [hs.runQueue]
      idle_parent := hs.idleProcess c
      idle_state := hs.running c
      current := by simp [hs.currentThread] }
  apart c d t h := by simp [hs.runQueue] at h
  idle := hs.idleThread
  parent t h := absurd h (hs.not_there t)
  waits t h := absurd h (hs.not_waits t)
  address t h := absurd h (hs.not_there t)
  counted :=
    { count := fun c _ ↦ by rw [hs.runQueue, hs.runQueueCount]; rfl
      single := fun t _ c h ↦ absurd h (hs.not_at t c)
      counts := fun t _ pc hpc ↦ by simp [hs.inserting t] at hpc }

/-! ## The contexts of the threads -/

/-- The processor that a thread is current on. -/
def State.runsOn (s : State n ρ) (t : ℕ) : Option (Fin (n + 1)) :=
  (List.finRange (n + 1)).find? fun c ↦ (s.cpu c).currentThread = some t

/-- The registers of a thread, wherever they are. -/
def State.contexts (s : State n ρ) (t : ℕ) : Option ρ :=
  if s.There t then
    some (match s.runsOn t with
      | some c => s.live c
      | none => (s.threads t).registers)
  else none

/-- What something that happens is to the threads. -/
def events (s : State n ρ) : Act n ρ → List (Event ℕ ρ)
  | .exec c f =>
    match (s.cpu c).currentThread with
    | some t => if t ∈ (s.cpu c).runQueue then [.exec t f] else []
    | none => []
  | .schedule c =>
    match (s.cpu c).currentThread with
    | some t =>
      if (s.cpu c).state t = .dying ∧ ((s.cpu c).schedule (s.live c)).2.isSome then [.leave t]
      else []
    | none => []
  | .insert t thread => [.enter t thread.registers]
  | .remove c =>
    match s.removing c with
    | some proc => ((s.cpu c).runQueue.filter (!stays proc (s.cpu c) ·)).map .leave
    | none => []
  | .write .. | .advance _ | .lock .. => []

/-- What a run is to them. -/
def history (s : State n ρ) : List (Act n ρ) → List (Event ℕ ρ)
  | [] => []
  | a :: acts => events s a ++ ((step s a).map (history · acts)).getD []

namespace State

theorem runsOn_eq_none (h : ∀ c, (s.cpu c).currentThread ≠ some t) : s.runsOn t = none :=
  List.find?_eq_none.mpr fun c _ ↦ by simpa using h c

theorem contexts_of_not_there (h : ¬ s.There t) : s.contexts t = none := if_neg h

theorem contexts_of_waiting (ht : s.There t) (h : ∀ c, (s.cpu c).currentThread ≠ some t) :
    s.contexts t = some (s.threads t).registers := by
  rw [contexts, if_pos ht, runsOn_eq_none h]

theorem isSome_contexts : (s.contexts t).isSome ↔ s.There t := by
  rw [contexts]
  split_ifs with h
  · exact iff_of_true rfl h
  · exact iff_of_false (by simp) h

/-- A thread that something is not about. -/
theorem contexts_congr (hthere : s'.There t ↔ s.There t)
    (hcurrent : s.There t → ∀ c,
      (s'.cpu c).currentThread = some t ↔ (s.cpu c).currentThread = some t)
    (hlive : s.There t → ∀ c, (s.cpu c).currentThread = some t → s'.live c = s.live c)
    (hregisters : (s'.threads t).registers = (s.threads t).registers) :
    s'.contexts t = s.contexts t := by
  by_cases ht : s.There t
  · have hruns : s'.runsOn t = s.runsOn t := by
      unfold runsOn
      simp only [hcurrent ht]
    rw [contexts, contexts, if_pos ht, if_pos (hthere.mpr ht), hruns]
    congr 1
    split
    · next c hc => exact hlive ht c (by simpa using List.find?_some hc)
    · exact hregisters
  · rw [contexts_of_not_there ht, contexts_of_not_there (hthere.not.mpr ht)]

/-- A processor does nothing to its queue. -/
theorem contexts_put (hcurrent : k.currentThread = (s.cpu c).currentThread)
    (hqueue : k.runQueue = (s.cpu c).runQueue)
    (hregisters : ∀ t, (k.threads t).registers = (s.threads t).registers) :
    (s.put c k).contexts = s.contexts := by
  funext t
  refine contexts_congr ?_ (fun _ d ↦ ?_) (fun _ _ _ ↦ rfl) (hregisters t)
  · unfold There
    simp only [runQueue_put hqueue]
    rfl
  · rw [currentThread_put hcurrent]

end State

namespace InOrder

/-- The registers of a processor are those of its current thread. -/
theorem contexts_of_current (hs : InOrder s) (hc : (s.cpu c).currentThread = some t)
    (hmem : t ∈ (s.cpu c).runQueue) : s.contexts t = some (s.live c) := by
  have hruns : s.runsOn t = some c := by
    obtain ⟨d, hd⟩ : ∃ d, s.runsOn t = some d := by
      refine Option.isSome_iff_exists.mp (List.find?_isSome.mpr ⟨c, List.mem_finRange c, ?_⟩)
      simpa using hc
    have hcurrent : (s.cpu d).currentThread = some t := by simpa using List.find?_some hd
    rw [hd, hs.current_unique hc hcurrent]
  rw [State.contexts, if_pos (State.there_of_mem hmem), hruns]

/-- A thread that waits in a queue. -/
theorem current_ne (hs : InOrder s) (hmem : t ∈ (s.cpu c).runQueue)
    (hc : (s.cpu c).currentThread ≠ some t) (d : Fin (n + 1)) :
    (s.cpu d).currentThread ≠ some t := by
  intro hd
  have hdc := hs.apart d c t (hs.mem_of_current (State.there_of_mem hmem) hd) hmem
  exact hc (hdc ▸ hd)

/-- A thread that is not there is current nowhere, but for the idle threads. -/
theorem current_ne_of_not_there (hs : InOrder s) (ht : ¬ s.There t)
    (hidle : ∀ c, t ≠ (s.cpu c).idleThread) (c : Fin (n + 1)) :
    (s.cpu c).currentThread ≠ some t := fun hc ↦
  ((hs.wellFormed c).current t hc).elim (fun hmem ↦ ht (State.there_of_mem hmem)) (hidle c)

end InOrder

/-! ## Each step on contexts that the threads have to themselves -/

theorem refines_exec (hs : InOrder s) (c : Fin (n + 1)) (f : ρ → ρ)
    (h : step s (.exec c f) = some s') :
    replay s.contexts (events s (.exec c f)) = some s'.contexts := by
  have hs' := hs.step (a := .exec c f) trivial h
  cases h
  have hother : ∀ t, (s.cpu c).currentThread ≠ some t ∨ ¬ s.There t →
      ({ s with live := Function.update s.live c (f (s.live c)) } : State n ρ).contexts t =
        s.contexts t := fun t ht ↦ by
    refine State.contexts_congr Iff.rfl (fun _ _ ↦ Iff.rfl) (fun hthere d hd ↦ ?_) rfl
    refine Function.update_of_ne ?_ ..
    rintro rfl
    exact ht.elim (· hd) (· hthere)
  rw [events]
  obtain hcurrent | ⟨u, hcurrent⟩ := (s.cpu c).currentThread.eq_none_or_eq_some
  · rw [hcurrent]
    dsimp only
    rw [replay_nil]
    exact congrArg some (funext fun t ↦ (hother t (.inl (by simp [hcurrent]))).symm)
  · rw [hcurrent]
    dsimp only
    split_ifs with hmem
    · rw [replay_singleton, apply_eq_some_iff]
      have hu := hs.contexts_of_current hcurrent hmem
      refine ⟨State.isSome_contexts.mpr (State.there_of_mem hmem), funext fun t ↦ ?_⟩
      by_cases htu : t = u
      · subst htu
        have ht := hs'.contexts_of_current (c := c) hcurrent hmem
        rw [ht]
        simp [Event.party, Event.own, hu]
      · have hne : t ≠ (Event.exec u f : Event ℕ ρ).party := htu
        rw [Function.update_of_ne hne]
        exact hother t (.inl fun h ↦ htu (Option.some.inj (h.symm.trans hcurrent)))
    · rw [replay_nil]
      refine congrArg some (funext fun t ↦ (hother t ?_).symm)
      by_cases htu : t = u
      · exact .inr fun hthere ↦ hmem (htu ▸ hs.mem_of_current hthere (htu ▸ hcurrent))
      · exact .inl fun h ↦ htu (Option.some.inj (h.symm.trans hcurrent))

/-- What a processor does to its queue and to the registers of its threads, when its current thread
is not dying. -/
theorem contexts_next (hs : InOrder s) {d : ℕ} {regs : ρ}
    (hs' : InOrder { s.put c k with live := Function.update s.live c regs })
    (hcurrent : k.currentThread = some d) (hqueue : k.runQueue = (s.cpu c).runQueue)
    (hregisters : ∀ t, (k.threads t).registers =
      if (s.cpu c).currentThread = some t ∧ t ∈ (s.cpu c).runQueue then s.live c
      else (s.threads t).registers)
    (hregs : regs = (k.threads d).registers) :
    ({ s.put c k with live := Function.update s.live c regs } : State n ρ).contexts =
      s.contexts := by
  set s' : State n ρ := { s.put c k with live := Function.update s.live c regs } with hs'_def
  have hself : s'.cpu c = k := State.cpu_put_self ..
  have hne : ∀ e, e ≠ c → (s'.cpu e).currentThread = (s.cpu e).currentThread := fun e he ↦ by
    have h : s'.cpu e = { s.cpu e with threads := k.threads, activeTicks := k.activeTicks } :=
      State.cpu_put_of_ne he
    rw [h]
  have hthere : ∀ t, s'.There t ↔ s.There t := fun t ↦ by
    have h : ∀ e, (s'.cpu e).runQueue = (s.cpu e).runQueue := State.runQueue_put hqueue
    unfold State.There
    simp only [h]
    rfl
  have hmem' : ∀ {t}, t ∈ (s.cpu c).runQueue → t ∈ (s'.cpu c).runQueue := fun ht ↦ by
    rwa [hself, hqueue]
  have hlive : s'.live c = (k.threads d).registers := by
    rw [← hregs]
    exact Function.update_self ..
  funext t
  by_cases hput : (s.cpu c).currentThread = some t ∧ t ∈ (s.cpu c).runQueue
  · -- the thread that is put aside, and may be the one that comes next
    have hsaved : (k.threads t).registers = s.live c := (hregisters t).trans (if_pos hput)
    rw [hs.contexts_of_current hput.1 hput.2]
    by_cases htd : t = d
    · rw [hs'.contexts_of_current (c := c) (by rw [hself, hcurrent, htd]) (hmem' hput.2), hlive,
        ← htd, hsaved]
    · have hwait := hs'.current_ne (hmem' hput.2) (by
        rw [hself, hcurrent]
        exact fun h ↦ htd (Option.some.inj h).symm)
      rw [State.contexts_of_waiting ((hthere t).mpr (State.there_of_mem hput.2)) hwait]
      exact congrArg some hsaved
  · have hsame : (k.threads t).registers = (s.threads t).registers :=
      (hregisters t).trans (if_neg hput)
    by_cases hnext : s.There t ∧ t = d
    · -- the thread that comes next
      obtain ⟨ht, rfl⟩ := hnext
      have hmem : t ∈ (s.cpu c).runQueue := by
        have h := hs'.mem_of_current ((hthere t).mpr ht) (by rw [hself, hcurrent])
        rwa [hself, hqueue] at h
      rw [State.contexts_of_waiting ht (hs.current_ne hmem fun h ↦ hput ⟨h, hmem⟩),
        hs'.contexts_of_current (c := c) (by rw [hself, hcurrent]) (hmem' hmem), hlive, hsame]
    · refine State.contexts_congr (hthere t) (fun ht e ↦ ?_) (fun ht e he ↦ ?_) hsame
      · by_cases hec : e = c
        · subst hec
          rw [hself, hcurrent]
          refine iff_of_false (fun h ↦ hnext ⟨ht, (Option.some.inj h).symm⟩) fun h ↦ ?_
          exact hput ⟨h, hs.mem_of_current ht h⟩
        · rw [hne e hec]
      · refine Function.update_of_ne ?_ ..
        rintro rfl
        exact hput ⟨he, hs.mem_of_current ht he⟩

theorem there_put_iff (hs : InOrder s) {gone : List ℕ}
    (hmem : ∀ t ∈ gone, t ∈ (s.cpu c).runQueue)
    (hqueue : ∀ t, t ∈ k.runQueue ↔ t ∈ (s.cpu c).runQueue ∧ t ∉ gone) (t : ℕ) :
    (s.put c k).There t ↔ s.There t ∧ t ∉ gone := by
  constructor
  · intro h
    refine ⟨State.there_of_put (fun u hu ↦ ((hqueue u).mp hu).1) h, fun hgone ↦ ?_⟩
    obtain h | ⟨d, hd⟩ := h
    · exact hs.waits t h c (hmem t hgone)
    · have hdc := hs.apart d c t (State.mem_put (fun u hu ↦ ((hqueue u).mp hu).1) hd) (hmem t hgone)
      rw [hdc, State.cpu_put_self] at hd
      exact ((hqueue t).mp hd).2 hgone
  · rintro ⟨h | ⟨d, hd⟩, hgone⟩
    · exact .inl h
    · refine .inr ⟨d, ?_⟩
      by_cases hdc : d = c
      · subst hdc
        rw [State.cpu_put_self]
        exact (hqueue t).mpr ⟨hd, hgone⟩
      · rwa [State.cpu_put_of_ne hdc]

/-- A processor takes threads out of its queue that are current on no other. -/
theorem replay_gone (hs : InOrder s) {gone : List ℕ} {live : Fin (n + 1) → ρ}
    (hgone : gone.Nodup) (hmem : ∀ t ∈ gone, t ∈ (s.cpu c).runQueue)
    (hqueue : ∀ t, t ∈ k.runQueue ↔ t ∈ (s.cpu c).runQueue ∧ t ∉ gone)
    (hcurrent : ∀ t, t ∉ gone → s.There t →
      (k.currentThread = some t ↔ (s.cpu c).currentThread = some t))
    (hregisters : ∀ t, (k.threads t).registers = (s.threads t).registers)
    (hlive : ∀ t, t ∉ gone → ∀ d, (s.cpu d).currentThread = some t → live d = s.live d) :
    replay s.contexts (gone.map .leave) =
      some ({ s.put c k with live := live } : State n ρ).contexts := by
  have hthere : ∀ t, ({ s.put c k with live := live } : State n ρ).There t ↔
      s.There t ∧ t ∉ gone := there_put_iff hs hmem hqueue
  rw [replay_leave hgone fun t ht ↦ State.isSome_contexts.mpr (State.there_of_mem (hmem t ht))]
  refine congrArg some (funext fun t ↦ ?_)
  split_ifs with ht
  · exact (State.contexts_of_not_there fun h ↦ ((hthere t).mp h).2 ht).symm
  · refine (State.contexts_congr ((hthere t).trans (and_iff_left ht)) (fun hthere d ↦ ?_)
      (fun _ ↦ hlive t ht) (hregisters t)).symm
    show ((s.put c k).cpu d).currentThread = some t ↔ _
    by_cases hdc : d = c
    · rw [hdc, State.cpu_put_self]
      exact hcurrent t ht hthere
    · rw [State.cpu_put_of_ne hdc]

theorem refines_schedule (hs : InOrder s) (c : Fin (n + 1)) (ha : Alone s (.schedule c))
    (h : step s (.schedule c) = some s') :
    replay s.contexts (events s (.schedule c)) = some s'.contexts := by
  have hs' := hs.step ha h
  have hwithin := Cpu.within_schedule (s.cpu c) (s.live c)
  have hswitch := (hs.wellFormed_cpu ha).switch_schedule (s.live c)
  rw [events]
  rw [step] at h
  generalize (s.cpu c).schedule (s.live c) = r at h hwithin hswitch ⊢
  cases hswitch with
  | @stay k current queue registers =>
    cases h
    simp only [Option.isSome_none, Bool.false_eq_true, and_false, if_false]
    have hcontexts := State.contexts_put current queue registers
    split <;> rw [replay_nil, hcontexts]
  | @next k d alive current queue registers =>
    cases h
    have hcontexts := contexts_next hs hs' current queue registers rfl
    rw [hcontexts]
    split
    · next t ht => rw [if_neg fun h ↦ alive t ht h.1, replay_nil]
    · exact replay_nil
  | @dying k t dying mem current queue registers =>
    cases h
    rw [dying.1]
    dsimp only
    rw [if_pos ⟨dying.2, rfl⟩]
    refine replay_gone (c := c) hs (List.nodup_singleton t) (by simpa using mem)
      (fun u ↦ ?_) (fun u hu hthere ↦ ?_) registers (fun u hu d hd ↦ ?_)
    · rw [queue, (hs.nodup c).mem_erase_iff, List.mem_singleton, and_comm]
    · rw [List.mem_singleton] at hu
      rw [current, dying.1]
      exact iff_of_false (fun h ↦ hs.ne_idleThread hthere c (Option.some.inj h).symm) fun h ↦
        hu (Option.some.inj h).symm
    · refine Function.update_of_ne ?_ ..
      rintro rfl
      exact hu (List.mem_singleton.mpr (Option.some.inj (hd.symm.trans dying.1)))

theorem refines_insert (hs : InOrder s) (t : ℕ) (thread : Thread ρ)
    (h : step s (.insert t thread) = some s') :
    replay s.contexts (events s (.insert t thread)) = some s'.contexts := by
  rw [step] at h
  split_ifs at h with hnew
  cases h
  obtain ⟨-, hthere, -, -, hidle⟩ := hnew
  have hcurrent := hs.current_ne_of_not_there hthere fun c ↦ (hidle c).1
  rw [events, replay_singleton, apply_eq_some_iff]
  have hnone := State.contexts_of_not_there hthere
  refine ⟨Option.isNone_iff_eq_none.mpr hnone, funext fun u ↦ ?_⟩
  by_cases hut : u = t
  · subst hut
    have hwaiting : ({ s with
        threads := Function.update s.threads u thread
        inserting := Function.update s.inserting u (some (.choose 1 0)) } : State n ρ).contexts u =
          some (Function.update s.threads u thread u).registers :=
      State.contexts_of_waiting (.inl ((State.waits_of_eq (Function.update_self ..)).mpr rfl))
        hcurrent
    rw [hwaiting]
    simp [Event.party, Event.own]
  · have hne : u ≠ (Event.enter t thread.registers : Event ℕ ρ).party := hut
    rw [Function.update_of_ne hne]
    refine State.contexts_congr ?_ (fun _ _ ↦ Iff.rfl) (fun _ _ _ ↦ rfl) ?_
    · exact or_congr (State.waits_congr (Function.update_of_ne hut ..)) Iff.rfl
    · exact congrArg Thread.registers (Function.update_of_ne hut ..)

/-- A call of `insert_new_thread` is at another place. -/
theorem contexts_setPc {old : InsertPc n} (hold : s.inserting t = some old) (pc : InsertPc n)
    (hlinked : pc.linked = old.linked) :
    ({ s with inserting := Function.update s.inserting t (some pc) } : State n ρ).contexts =
      s.contexts := by
  funext u
  refine State.contexts_congr (or_congr ?_ Iff.rfl) (fun _ _ ↦ Iff.rfl) (fun _ _ _ ↦ rfl) rfl
  by_cases hut : u = t
  · subst hut
    rw [State.waits_of_eq hold, ← hlinked]
    exact State.waits_of_eq (Function.update_self ..)
  · exact State.waits_congr (Function.update_of_ne hut ..)

/-- It puts the thread into a queue. -/
theorem contexts_push (hpc : s.inserting t = some (.push c)) :
    ({ s.put c { s.cpu c with runQueue := (s.cpu c).runQueue ++ [t] } with
      inserting := Function.update s.inserting t (some (.load c)) } : State n ρ).contexts =
        s.contexts := by
  let k : Cpu ρ := { s.cpu c with runQueue := (s.cpu c).runQueue ++ [t] }
  have hqueue : ∀ u d, u ∈ ((s.put c k).cpu d).runQueue ↔
      u ∈ (s.cpu d).runQueue ∨ d = c ∧ u = t := fun u d ↦ by
    by_cases hdc : d = c
    · rw [hdc, State.cpu_put_self]
      exact List.mem_append.trans (or_congr Iff.rfl (by simp))
    · rw [State.cpu_put_of_ne hdc]
      simp [hdc]
  funext u
  refine State.contexts_congr ?_ (fun _ d ↦ ?_) (fun _ _ _ ↦ rfl) rfl
  · by_cases hut : u = t
    · subst hut
      exact iff_of_true (.inr ⟨c, (hqueue u c).mpr (.inr ⟨rfl, rfl⟩)⟩)
        (.inl ((State.waits_of_eq hpc).mpr rfl))
    · refine or_congr ?_ (exists_congr fun d ↦ ?_)
      · exact State.waits_congr (Function.update_of_ne hut ..)
      · exact (hqueue u d).trans (or_iff_left fun h ↦ hut h.2)
  · have hcurrent : ((s.put c k).cpu d).currentThread = (s.cpu d).currentThread :=
      State.currentThread_put (k := k) rfl d
    exact iff_of_eq (congrArg (· = some u) hcurrent)

/-- It counts the thread. -/
theorem contexts_store {count : U64} (hpc : s.inserting t = some (.store c count)) :
    ({ s.put c { s.cpu c with runQueueCount := count } with
      inserting := Function.update s.inserting t none } : State n ρ).contexts = s.contexts := by
  let k : Cpu ρ := { s.cpu c with runQueueCount := count }
  have hput : (s.put c k).contexts = s.contexts := State.contexts_put rfl rfl fun _ ↦ rfl
  refine Eq.trans (funext fun u ↦ ?_) hput
  refine State.contexts_congr (or_congr ?_ Iff.rfl) (fun _ _ ↦ Iff.rfl) (fun _ _ _ ↦ rfl) rfl
  by_cases hut : u = t
  · subst hut
    refine iff_of_false (State.not_waits (Function.update_self ..)) fun h ↦ ?_
    exact nomatch (State.waits_of_eq (s := s.put c k) hpc).mp h
  · exact State.waits_congr (Function.update_of_ne hut ..)

theorem refines_advance (t : ℕ) (h : step s (.advance t) = some s') :
    replay s.contexts (events s (.advance t)) = some s'.contexts := by
  rw [step] at h
  rw [events, replay_nil]
  unfold advance at h
  split at h
  · cases h
  · next i c hpc =>
    cases h
    exact congrArg some (contexts_setPc hpc _ (InOrder.queue_choose s i c).2).symm
  · next c hpc =>
    cases h
    exact congrArg some (contexts_setPc hpc (.push c) rfl).symm
  · next hpc =>
    cases h
    exact congrArg some (contexts_push hpc).symm
  · next c hpc =>
    cases h
    exact congrArg some (contexts_setPc hpc (.store c _) rfl).symm
  · next hpc =>
    cases h
    exact congrArg some (contexts_store hpc).symm

/-- **What happens on the processors, happens to threads that have a processor each.** -/
theorem refines_step (hs : InOrder s) {a : Act n ρ} (ha : Alone s a) (h : step s a = some s') :
    replay s.contexts (events s a) = some s'.contexts := by
  cases a with
  | exec c f => exact refines_exec hs c f h
  | schedule c => exact refines_schedule hs c ha h
  | insert t thread => exact refines_insert hs t thread h
  | advance t => exact refines_advance t h
  | write t state timeSlice timeSliceDefault =>
    rw [step] at h
    split_ifs at h
    cases h
    rw [events, replay_nil]
    refine congrArg some (Eq.symm (funext fun u ↦ ?_))
    refine State.contexts_congr Iff.rfl (fun _ _ ↦ Iff.rfl) (fun _ _ _ ↦ rfl) ?_
    exact Cpu.update_eq Thread.registers (by rfl) u
  | lock c proc =>
    rw [step] at h
    split_ifs at h
    cases h
    rw [events, replay_nil]
    have hlock : (s.put c { s.cpu c with runQueueLocked := true }).contexts = s.contexts :=
      State.contexts_put rfl rfl fun _ ↦ rfl
    exact congrArg some hlock.symm
  | remove c =>
    rw [step] at h
    rw [events]
    split at h
    · cases h
    · next proc hproc =>
      cases h
      rw [hproc]
      refine replay_gone (c := c) hs ((hs.nodup c).filter _)
        (fun t ht ↦ List.mem_of_mem_filter ht) (fun t ↦ ?_) (fun _ _ _ ↦ Iff.rfl)
        (fun _ ↦ rfl) fun _ _ _ _ ↦ rfl
      rw [removeThreads, List.mem_filter, List.mem_filter]
      simp only [Bool.not_eq_true', not_and, Bool.not_eq_false]
      exact and_congr_right fun ht ↦ ⟨fun h _ ↦ h, fun h ↦ h ht⟩

/-- **A run is a run of threads that have a processor each.** -/
theorem refines_run (hs : InOrder s) {acts : List (Act n ρ)}
    (ha : (processors n ρ).Along Alone s acts) (h : run s acts = some s') :
    replay s.contexts (history s acts) = some s'.contexts := by
  induction acts generalizing s with
  | nil =>
    cases h
    rfl
  | cons a acts ih =>
    obtain ⟨middle, hfirst, hrest⟩ := Option.bind_eq_some_iff.mp h
    rw [history, hfirst, replay_append, refines_step hs ha.1 hfirst]
    exact ih (hs.step ha.1 hfirst) (ha.2 middle hfirst) hrest

/-- **The run queues over any run** in which insertions are alone at their queues.  A thread is in
one queue at most and once, and current on one processor at most; what is current on a processor is
in its queue, or its idle thread; and the counts are the lengths, but for a queue that a thread is
being inserted in. -/
theorem run_inOrder (hstart : Started s) {acts : List (Act n ρ)}
    (ha : (processors n ρ).Along Alone s acts) (h : run s acts = some s') :
    (∀ c, (s'.cpu c).runQueue.Nodup ∧ ((∀ t, ¬ s'.At t c) →
      (s'.cpu c).runQueueCount.toNat = (s'.cpu c).runQueue.length)) ∧
    (∀ c d t, t ∈ (s'.cpu c).runQueue → t ∈ (s'.cpu d).runQueue → c = d) ∧
    (∀ c t, (s'.cpu c).currentThread = some t →
      t ∈ (s'.cpu c).runQueue ∨ t = (s'.cpu c).idleThread) ∧
    ∀ c d t, (s'.cpu c).currentThread = some t → (s'.cpu d).currentThread = some t → c = d := by
  have hs' := hstart.inOrder.run ha h
  exact ⟨fun c ↦ ⟨hs'.nodup c, hs'.counted.count c⟩, hs'.apart,
    fun c ↦ (hs'.wellFormed c).current, fun _ _ _ ↦ hs'.current_unique⟩

/-- **A thread has registers to itself.**  The history of a run can be replayed on a processor for
each thread; and the registers of the processor that a thread is current on are what the thread's
own instructions alone have made of those that it came with. -/
theorem run_contexts (hstart : Started s) {acts : List (Act n ρ)}
    (ha : (processors n ρ).Along Alone s acts) (h : run s acts = some s') :
    replay (fun _ ↦ none) (history s acts) = some s'.contexts ∧
    ∀ c t, (s'.cpu c).currentThread = some t → t ≠ (s'.cpu c).idleThread →
      some (s'.live c) = ((history s acts).filter (·.party = t)).foldl Event.own none := by
  have hempty : s.contexts = fun _ ↦ none :=
    funext fun t ↦ State.contexts_of_not_there (hstart.not_there t)
  have hreplay := refines_run hstart.inOrder ha h
  rw [hempty] at hreplay
  refine ⟨hreplay, fun c t ht hidle ↦ ?_⟩
  have hs' := hstart.inOrder.run ha h
  have hmem := ((hs'.wellFormed c).current t ht).resolve_right hidle
  rw [← hs'.contexts_of_current ht hmem]
  exact replay_own hreplay t

/-- Two processors with their idle threads, `1` and `2`. -/
def twoProcessors : State 1 ℕ where
  core c :=
    { currentThread := none
      idleProcess := c.val
      idleThread := c.val + 1
      runQueueLocked := false
      runQueueCount := 0
      runQueue := [] }
  threads t := ⟨t - 1, .running, 0, 0, 0⟩
  activeTicks _ := 0
  live _ := 0
  inserting _ := none
  removing _ := none

theorem twoProcessors_started : Started twoProcessors where
  runQueue _ := rfl
  runQueueCount _ := rfl
  currentThread _ := rfl
  idleThread _ _ h := Fin.ext (Nat.succ_injective h)
  idleProcess _ := rfl
  running _ := rfl
  inserting _ := rfl

/-- The first of two processors. -/
def firstOfTwo : Fin (1 + 1) := ⟨0, Nat.two_pos⟩

/-- A thread comes, waits for its turn, and executes before and after a tick. -/
def shortRun : List (Act 1 ℕ) :=
  .insert 10 ⟨7, .running, 0, 0, 5⟩ :: List.replicate 5 (.advance 10) ++
    [.schedule firstOfTwo, .schedule firstOfTwo, .exec firstOfTwo (· + 1), .schedule firstOfTwo,
      .exec firstOfTwo (· * 2)]

/-- No other thread is being inserted, and `end_process` is nowhere at work. -/
structure Only (s : State n ρ) (t : ℕ) : Prop where
  others : ∀ u, u ≠ t → s.inserting u = none
  unlocked : ∀ c, (s.cpu c).runQueueLocked = false

namespace Only

/-- Then nobody is in its way. -/
theorem alone (h : Only s t) : Alone s (.advance t) := by
  refine fun c hpc ↦ ⟨h.unlocked c, fun u hu ↦ ?_⟩
  by_cases hut : u = t
  · exact nomatch (State.at_of_eq hpc).mp (hut ▸ hu)
  · rw [State.At, h.others u hut] at hu
    cases hu

theorem none (h : Only s t) (ht : s.inserting t = none) (u : ℕ) : s.inserting u = none :=
  if hut : u = t then hut ▸ ht else h.others u hut

theorem setPc (h : Only s t) (next : Option (InsertPc n)) :
    Only { s with inserting := Function.update s.inserting t next } t where
  others u hu := (Function.update_of_ne hu ..).trans (h.others u hu)
  unlocked := h.unlocked

theorem put (h : Only s t) (hk : k.runQueueLocked = false) : Only (s.put c k) t where
  others := h.others
  unlocked d := by
    by_cases hdc : d = c
    · rw [hdc, State.cpu_put_self, hk]
    · rw [State.cpu_put_of_ne hdc]
      exact h.unlocked d

theorem advance (h : Only s t) (hs : advance s t = some s') : Only s' t := by
  unfold Processors.advance at hs
  split at hs
  · cases hs
  · cases hs
    exact h.setPc _
  · cases hs
    exact h.setPc _
  · next c _ =>
    cases hs
    let k : Cpu ρ := { s.cpu c with runQueue := (s.cpu c).runQueue ++ [t] }
    exact (h.put (c := c) (k := k) (h.unlocked c)).setPc _
  · cases hs
    exact h.setPc _
  · next c count _ =>
    cases hs
    let k : Cpu ρ := { s.cpu c with runQueueCount := count }
    exact (h.put (c := c) (k := k) (h.unlocked c)).setPc _

/-- It gets on, some steps far. -/
theorem along {P : State n ρ → Act n ρ → Prop} (hP : ∀ s, Only s t → P s (.advance t))
    {steps : ℕ} {acts : List (Act n ρ)} (h : Only s t)
    (hrun : run s (List.replicate steps (.advance t)) = some s')
    (hrest : Only s' t → (processors n ρ).Along P s' acts) :
    (processors n ρ).Along P s (List.replicate steps (.advance t) ++ acts) := by
  induction steps generalizing s with
  | zero =>
    cases hrun
    exact hrest h
  | succ steps ih =>
    obtain ⟨middle, hfirst, hrun⟩ := Option.bind_eq_some_iff.mp hrun
    exact Machine.Along.cons (hP s h) hfirst (ih (h.advance hfirst) hrun)

end Only

theorem alone_schedule (h : ∀ t, s.inserting t = none) : Alone s (.schedule c) := fun t ht ↦ by
  rw [State.At, h t] at ht
  cases ht

theorem along_shortRun : (processors 1 ℕ).Along Alone twoProcessors shortRun := by
  refine .cons trivial rfl (Only.along (fun _ ↦ Only.alone) ⟨fun u hu ↦ ?_, fun _ ↦ rfl⟩ rfl
    fun honly ↦ ?_)
  · exact Function.update_of_ne hu ..
  · have hnone := honly.none rfl
    exact .cons (alone_schedule hnone) rfl (.cons (alone_schedule hnone) rfl (.cons trivial rfl
      (.cons (alone_schedule hnone) rfl (.cons trivial rfl trivial))))

theorem run_inOrder_short : ∃ s', run twoProcessors shortRun = some s' ∧
    (s'.cpu 0).runQueue.Nodup := by
  obtain ⟨s', hs'⟩ : ∃ s', run twoProcessors shortRun = some s' := ⟨_, rfl⟩
  exact ⟨s', hs', ((run_inOrder twoProcessors_started along_shortRun hs').1 0).1⟩

theorem run_contexts_short : ∃ s', run twoProcessors shortRun = some s' ∧
    s'.contexts 10 = some 12 ∧
    replay (fun _ ↦ none) (history twoProcessors shortRun) = some s'.contexts :=
  ⟨_, rfl, rfl, (run_contexts twoProcessors_started along_shortRun rfl).1⟩

/-- Two threads are inserted into one queue at a time: both calls read the count, and each writes
back one more than it was. -/
theorem count_lost : ∃ s', run twoProcessors ([.insert 10 ⟨7, .running, 0, 0, 5⟩,
      .insert 11 ⟨7, .running, 0, 0, 5⟩] ++ List.replicate 4 (.advance 10) ++
      List.replicate 5 (.advance 11) ++ [.advance 10]) = some s' ∧
    (s'.cpu 0).runQueue = [10, 11] ∧ (s'.cpu 0).runQueueCount = 1 :=
  ⟨_, rfl, rfl, rfl⟩

end Processors

end Borrrdex
