import Borrrdex.Sched.Thread
import Mathlib.Data.List.TakeWhile
import Mathlib.Tactic

/-!
# The scheduler

`scheduler::schedule` runs on every tick of a CPU.  While the current thread has time left it only
counts; otherwise it picks the next thread of the run queue and switches to it.  A thread that is
picked and found blocked is to be skipped, but the loop that does this runs *while* threads are not
blocked: it stops at the next blocked one, and goes to the idle thread if there is none.

`Fair` is what a switch owes to the threads, and `fair_iff` says when it is so: the first thread
that follows the current one is not blocked, or nobody behind it is there to be passed over or to be
stopped at.

The run queue is the list of its threads, linked by `hook`.  Of the context of a thread only the
registers are here; the state of the floating point unit and `fs_base` are moved with them.
-/

set_option autoImplicit false

namespace Borrrdex

/-- `threading::thread`, as the scheduler uses it.  `ρ` is `register_context`. -/
structure Thread (ρ : Type) where
  parent : ℕ
  state : ThreadState
  timeSlice : U32
  timeSliceDefault : U32
  registers : ρ

/-- `cpu`, with the threads it knows of and, by process, `active_ticks`. -/
structure Cpu (ρ : Type) where
  currentThread : Option ℕ
  idleProcess : ℕ
  /-- `idle_process->threads.get(0)`. -/
  idleThread : ℕ
  runQueueLocked : Bool
  runQueueCount : U64
  runQueue : List ℕ
  threads : ℕ → Thread ρ
  activeTicks : ℕ → U64

/-- The threads behind `t` in a queue; the first of them is `t->hook.next`. -/
def behind (queue : List ℕ) (t : ℕ) : List ℕ := (queue.dropWhile (· ≠ t)).tail

namespace Cpu

variable {ρ : Type}

/-- The state of a thread. -/
def state (c : Cpu ρ) (t : ℕ) : ThreadState := (c.threads t).state

/-- The loop `do current = current->hook.next; while(current && current->state != blocked)`, over
the threads behind the current one. -/
def skipLoop (c : Cpu ρ) : List ℕ → Option ℕ
  | [] => none
  | t :: rest => if c.state t ≠ .blocked then skipLoop c rest else some t

/-- What happens to a thread that has been picked and is blocked. -/
def skipBlocked (c : Cpu ρ) : Cpu ρ :=
  match c.currentThread with
  | none => c
  | some t =>
    if c.state t = .blocked then
      { c with currentThread := some ((c.skipLoop (behind c.runQueue t)).getD c.idleThread) }
    else c

/-- The three ways to leave the current thread `t`: it is dying, or it is put aside, or it is the
idle thread. -/
def leave (c : Cpu ρ) (t : ℕ) (regs : ρ) : Cpu ρ :=
  let thread := c.threads t
  if c.state t = .dying then
    { c with
      runQueue := c.runQueue.erase t
      runQueueCount := c.runQueueCount - 1
      currentThread := some c.idleThread }
  else if thread.parent ≠ c.idleProcess then
    { c with
      threads := Function.update c.threads t
        { thread with registers := regs, timeSlice := thread.timeSliceDefault }
      currentThread := (behind c.runQueue t).head?.or c.runQueue.head? }
  else { c with currentThread := c.runQueue.head? }

/-- The part of `schedule` under the lock. -/
def pick (c : Cpu ρ) (regs : ρ) : Cpu ρ :=
  match c.currentThread with
  | none => { c with currentThread := some c.idleThread }
  | some t =>
    if c.runQueueCount = 0 then { c with currentThread := some c.idleThread }
    else (c.leave t regs).skipBlocked

/-- The current thread is charged for the tick; the flag says that its time is not up. -/
def charge (c : Cpu ρ) : Bool × Cpu ρ :=
  match c.currentThread with
  | none => (false, c)
  | some t =>
    let thread := c.threads t
    let c :=
      { c with
        activeTicks := Function.update c.activeTicks thread.parent
          (c.activeTicks thread.parent + 1) }
    if thread.timeSlice > 0 then
      (true, { c with
        threads := Function.update c.threads t { thread with timeSlice := thread.timeSlice - 1 } })
    else (false, c)

/-- `scheduler::schedule`: the CPU afterwards, and the thread and the registers it switches to, if
it does. -/
def schedule (c : Cpu ρ) (regs : ρ) : Cpu ρ × Option (ℕ × ρ) :=
  let (running, c) := c.charge
  if running ∨ c.runQueueLocked then (c, none)
  else
    let c := c.pick regs
    (c, c.currentThread.map fun t ↦ (t, (c.threads t).registers))

/-! ## A CPU in order -/

/-- What the rest of the scheduler keeps: the count is right, the threads in the queue are
different and none of them belongs to the idle process, and the current thread is one of them, or
the idle thread, or there is none. -/
structure WellFormed (c : Cpu ρ) : Prop where
  count : c.runQueueCount.toNat = c.runQueue.length
  nodup : c.runQueue.Nodup
  parent : ∀ t ∈ c.runQueue, (c.threads t).parent ≠ c.idleProcess
  idle_parent : (c.threads c.idleThread).parent = c.idleProcess
  idle_state : c.state c.idleThread = .running
  current : ∀ t ∈ c.currentThread, t ∈ c.runQueue ∨ t = c.idleThread

/-- The threads that follow the current one, in the order they are met: those behind it, or, when
there are none, the whole queue, since the line then starts over. -/
def followers (c : Cpu ρ) : List ℕ :=
  match c.currentThread with
  | none => []
  | some t => if behind c.runQueue t = [] then c.runQueue else behind c.runQueue t

/-- **A fair switch** to `d`: it goes to a thread that is not blocked, or to the idle thread, and to
the latter, or to a blocked one, only if no running thread follows. -/
structure Fair (c : Cpu ρ) (d : ℕ) : Prop where
  runnable : d = c.idleThread ∨ d ∈ c.runQueue ∧ c.state d ≠ .blocked
  passes : ∀ t ∈ c.followers, c.state t = .running → d ≠ c.idleThread ∧ c.state d ≠ .blocked

/-- The current thread is dying and no running thread follows; or it is not, and the thread next in
line is not blocked, or no other that follows is blocked or running. -/
def Clear (c : Cpu ρ) : Prop :=
  ∀ t ∈ c.currentThread,
    if c.state t = .dying then ∀ y ∈ c.followers, c.state y ≠ .running
    else ∀ x ∈ c.followers.head?, c.state x = .blocked →
      ∀ y ∈ c.followers.tail, c.state y ≠ .blocked ∧ c.state y ≠ .running

/-! ## The threads behind a thread -/

theorem behind_suffix (queue : List ℕ) (t : ℕ) : behind queue t <:+ queue :=
  (List.tail_suffix _).trans (List.dropWhile_suffix _)

theorem behind_append {pre : List ℕ} {t : ℕ} (h : t ∉ pre) (rest : List ℕ) :
    behind (pre ++ t :: rest) t = rest := by
  induction pre with
  | nil => simp [behind]
  | cons x pre ih =>
    obtain ⟨hne, hmem⟩ := not_or.mp (List.mem_cons.not.mp h)
    rw [behind, List.cons_append, List.dropWhile_cons_of_pos (by simpa using Ne.symm hne)]
    exact ih hmem

theorem behind_of_notMem {queue : List ℕ} {t : ℕ} (h : t ∉ queue) : behind queue t = [] := by
  rw [behind, List.dropWhile_eq_nil_iff.mpr, List.tail_nil]
  intro x hx
  simpa using ne_of_mem_of_not_mem hx h

variable {c : Cpu ρ} {regs : ρ}

theorem followers_suffix (c : Cpu ρ) : c.followers <:+ c.runQueue := by
  rw [followers]
  split
  · exact List.nil_suffix
  · split
    · exact List.suffix_rfl
    · exact behind_suffix _ _

/-- The loop that skips threads goes over those that follow, but for the first. -/
theorem behind_of_followers (h : c.runQueue.Nodup) {x : ℕ} {rest : List ℕ}
    (hx : c.followers = x :: rest) : behind c.runQueue x = rest := by
  obtain ⟨pre, hpre⟩ := c.followers_suffix
  rw [hx] at hpre
  rw [← hpre] at h ⊢
  refine behind_append (fun hmem ↦ ?_) rest
  exact (List.nodup_append.mp h).2.2 x hmem x List.mem_cons_self rfl

/-! ## What is picked -/

theorem skipLoop_eq_none_iff {l : List ℕ} :
    c.skipLoop l = none ↔ ∀ t ∈ l, c.state t ≠ .blocked := by
  induction l with
  | nil => simp [skipLoop]
  | cons t l ih =>
    rw [skipLoop, List.forall_mem_cons]
    split
    · next h => rw [ih, and_iff_right h]
    · next h => simp [not_not.mp h]

theorem mem_of_skipLoop {l : List ℕ} {t : ℕ} (h : c.skipLoop l = some t) :
    t ∈ l ∧ c.state t = .blocked := by
  induction l with
  | nil => cases h
  | cons x l ih =>
    rw [skipLoop] at h
    split at h
    · exact ⟨List.mem_cons_of_mem x (ih h).1, (ih h).2⟩
    · next hx =>
      cases h
      exact ⟨List.mem_cons_self, not_not.mp hx⟩

/-- The thread that `schedule` switches to. -/
def choice (c : Cpu ρ) : ℕ :=
  match c.currentThread with
  | none => c.idleThread
  | some t =>
    if c.state t = .dying then c.idleThread
    else match c.followers with
      | [] => c.idleThread
      | x :: rest => if c.state x = .blocked then (c.skipLoop rest).getD c.idleThread else x

theorem state_update (c : Cpu ρ) (t : ℕ) {thread : Thread ρ} (h : thread.state = c.state t) :
    ({ c with threads := Function.update c.threads t thread } : Cpu ρ).state = c.state := by
  funext x
  by_cases hx : x = t
  · subst hx
    simp [state, h]
  · simp [state, hx]

theorem skipLoop_congr {c' : Cpu ρ} (h : c'.state = c.state) (l : List ℕ) :
    c'.skipLoop l = c.skipLoop l := by
  induction l with
  | nil => rfl
  | cons t l ih => rw [skipLoop, skipLoop, h, ih]

theorem skipBlocked_eq {x : ℕ} (h : c.currentThread = some x) : c.skipBlocked =
    { c with currentThread := some (if c.state x = .blocked then
        (c.skipLoop (behind c.runQueue x)).getD c.idleThread else x) } := by
  rw [skipBlocked, h]
  dsimp only
  split
  · rfl
  · rw [← h]

theorem leave_of_dying {t : ℕ} (h : c.state t = .dying) : c.leave t regs =
    { c with
      runQueue := c.runQueue.erase t
      runQueueCount := c.runQueueCount - 1
      currentThread := some c.idleThread } :=
  if_pos h

theorem leave_of_parent_ne {t : ℕ} (h : c.state t ≠ .dying)
    (hparent : (c.threads t).parent ≠ c.idleProcess) : c.leave t regs =
    { c with
      threads := Function.update c.threads t
        { c.threads t with registers := regs, timeSlice := (c.threads t).timeSliceDefault }
      currentThread := (behind c.runQueue t).head?.or c.runQueue.head? } :=
  (if_neg h).trans (if_pos hparent)

theorem leave_of_parent_eq {t : ℕ} (h : c.state t ≠ .dying)
    (hparent : (c.threads t).parent = c.idleProcess) :
    c.leave t regs = { c with currentThread := c.runQueue.head? } :=
  (if_neg h).trans (if_neg (not_not.mpr hparent))

theorem pick_of_none (h : c.currentThread = none) (regs : ρ) :
    c.pick regs = { c with currentThread := some c.idleThread } := by
  rw [pick, h]

theorem pick_of_count (h : c.runQueueCount = 0) (regs : ρ) :
    c.pick regs = { c with currentThread := some c.idleThread } := by
  rw [pick]
  split
  · rfl
  · exact if_pos h

theorem pick_eq_leave {t : ℕ} (ht : c.currentThread = some t) (h : c.runQueueCount ≠ 0)
    (regs : ρ) : c.pick regs = (c.leave t regs).skipBlocked := by
  rw [pick, ht]
  exact if_neg h

namespace WellFormed

theorem idle_notMem (hc : c.WellFormed) : c.idleThread ∉ c.runQueue :=
  fun h ↦ hc.parent _ h hc.idle_parent

theorem parent_ne_iff (hc : c.WellFormed) {t : ℕ} (ht : c.currentThread = some t) :
    (c.threads t).parent ≠ c.idleProcess ↔ t ≠ c.idleThread := by
  constructor
  · rintro hne rfl
    exact hne hc.idle_parent
  · intro hne
    exact hc.parent t ((hc.current t ht).resolve_right hne)

theorem runQueue_eq_nil_iff (hc : c.WellFormed) : c.runQueue = [] ↔ c.runQueueCount = 0 := by
  rw [← List.length_eq_zero_iff, ← hc.count, BitVec.toNat_eq]
  rfl

theorem followers_eq_nil_iff (hc : c.WellFormed) {t : ℕ} (ht : c.currentThread = some t) :
    c.followers = [] ↔ c.runQueueCount = 0 := by
  rw [← hc.runQueue_eq_nil_iff, followers, ht]
  dsimp only
  split
  · rfl
  · next h =>
    refine iff_of_false h fun hqueue ↦ h ?_
    rw [hqueue]
    rfl

theorem head_followers {t : ℕ} (ht : c.currentThread = some t) :
    c.followers.head? = (behind c.runQueue t).head?.or c.runQueue.head? := by
  rw [followers, ht]
  dsimp only
  split
  · next h => rw [h, List.head?_nil, Option.none_or]
  · next h =>
    obtain ⟨x, l, hx⟩ := List.exists_cons_of_ne_nil h
    rw [hx, List.head?_cons, Option.some_or]

/-- Putting the current thread aside, or leaving the idle thread, hands over to the next in line. -/
theorem currentThread_leave (hc : c.WellFormed) {t : ℕ} (ht : c.currentThread = some t)
    (hdying : c.state t ≠ .dying) (regs : ρ) :
    (c.leave t regs).currentThread = c.followers.head? ∧ (c.leave t regs).state = c.state ∧
      (c.leave t regs).runQueue = c.runQueue ∧ (c.leave t regs).idleThread = c.idleThread := by
  rw [head_followers ht]
  by_cases hidle : t = c.idleThread
  · rw [leave_of_parent_eq hdying (hidle ▸ hc.idle_parent),
      behind_of_notMem (hidle ▸ hc.idle_notMem)]
    exact ⟨rfl, rfl, rfl, rfl⟩
  · rw [leave_of_parent_ne hdying ((hc.parent_ne_iff ht).mpr hidle)]
    exact ⟨rfl, c.state_update t rfl, rfl, rfl⟩

theorem currentThread_pick (hc : c.WellFormed) (regs : ρ) :
    (c.pick regs).currentThread = some c.choice := by
  rw [choice]
  obtain ht | ⟨t, ht⟩ := c.currentThread.eq_none_or_eq_some
  · rw [pick_of_none ht, ht]
  · rw [ht]
    dsimp only
    by_cases hcount : c.runQueueCount = 0
    · rw [pick_of_count hcount, (hc.followers_eq_nil_iff ht).mpr hcount]
      exact congrArg some (ite_self _).symm
    · rw [pick_eq_leave ht hcount]
      by_cases hdying : c.state t = .dying
      · rw [if_pos hdying, leave_of_dying hdying, skipBlocked_eq rfl]
        exact congrArg some (if_neg (ne_of_eq_of_ne hc.idle_state (by decide)))
      · obtain ⟨x, rest, hx⟩ :=
          List.exists_cons_of_ne_nil ((hc.followers_eq_nil_iff ht).not.mpr hcount)
        obtain ⟨hcurrent, hstate, hqueue, hidle⟩ := hc.currentThread_leave ht hdying regs
        rw [hx, List.head?_cons] at hcurrent
        rw [if_neg hdying, hx, skipBlocked_eq hcurrent, hstate, hqueue, hidle,
          skipLoop_congr hstate, behind_of_followers hc.nodup hx]

end WellFormed

/-! ## Time that is not up -/

theorem charge_of_pos {t : ℕ} (ht : c.currentThread = some t) (h : 0 < (c.threads t).timeSlice) :
    c.charge = (true,
      { c with
        activeTicks := Function.update c.activeTicks (c.threads t).parent
          (c.activeTicks (c.threads t).parent + 1)
        threads := Function.update c.threads t
          { c.threads t with timeSlice := (c.threads t).timeSlice - 1 } }) := by
  rw [charge, ht]
  exact if_pos h

/-- While its time is not up, the current thread goes on. -/
theorem schedule_of_pos {t : ℕ} (ht : c.currentThread = some t)
    (h : 0 < (c.threads t).timeSlice) (regs : ρ) : c.schedule regs =
    ({ c with
      activeTicks := Function.update c.activeTicks (c.threads t).parent
        (c.activeTicks (c.threads t).parent + 1)
      threads := Function.update c.threads t
        { c.threads t with timeSlice := (c.threads t).timeSlice - 1 } }, none) := by
  rw [schedule, charge_of_pos ht h]
  exact if_pos (.inl rfl)

/-- When no time is left, only `active_ticks` has changed. -/
theorem charge_of_up (h : ∀ t ∈ c.currentThread, (c.threads t).timeSlice = 0) :
    ∃ ticks, c.charge = (false, { c with activeTicks := ticks }) := by
  obtain ht | ⟨t, ht⟩ := c.currentThread.eq_none_or_eq_some
  · have hcharge : c.charge = (false, c) := by rw [charge, ht]
    exact ⟨c.activeTicks, hcharge⟩
  · refine ⟨Function.update c.activeTicks (c.threads t).parent
      (c.activeTicks (c.threads t).parent + 1), ?_⟩
    rw [charge, ht]
    refine if_neg ?_
    rw [h t ht]
    decide

/-- A call that switches found the time up and the lock free. -/
theorem schedule_some {d : ℕ} {r : ρ} (h : (c.schedule regs).2 = some (d, r)) :
    (∀ t ∈ c.currentThread, (c.threads t).timeSlice = 0) ∧ c.runQueueLocked = false := by
  have hup : ∀ t ∈ c.currentThread, (c.threads t).timeSlice = 0 := by
    intro t ht
    by_contra hne
    have hpos : 0 < (c.threads t).timeSlice := by bv_omega
    rw [schedule_of_pos ht hpos] at h
    cases h
  refine ⟨hup, ?_⟩
  obtain ⟨ticks, hcharge⟩ := charge_of_up hup
  rw [schedule, hcharge] at h
  cases hlock : c.runQueueLocked with
  | false => rfl
  | true => simp [hlock] at h

/-- A call that finds the time up and the lock free picks a thread. -/
theorem schedule_eq (h : ∀ t ∈ c.currentThread, (c.threads t).timeSlice = 0)
    (hlock : c.runQueueLocked = false) (regs : ρ) :
    ∃ ticks, c.schedule regs =
      (({ c with activeTicks := ticks } : Cpu ρ).pick regs,
        (({ c with activeTicks := ticks } : Cpu ρ).pick regs).currentThread.map fun t ↦
          (t, ((({ c with activeTicks := ticks } : Cpu ρ).pick regs).threads t).registers)) := by
  obtain ⟨ticks, hcharge⟩ := charge_of_up h
  refine ⟨ticks, ?_⟩
  rw [schedule, hcharge]
  exact if_neg (by simp [hlock])

theorem WellFormed.setTicks (hc : c.WellFormed) (ticks : ℕ → U64) :
    ({ c with activeTicks := ticks } : Cpu ρ).WellFormed :=
  ⟨hc.count, hc.nodup, hc.parent, hc.idle_parent, hc.idle_state, hc.current⟩

theorem choice_setTicks (c : Cpu ρ) (ticks : ℕ → U64) :
    ({ c with activeTicks := ticks } : Cpu ρ).choice = c.choice := by
  have hstate : ({ c with activeTicks := ticks } : Cpu ρ).state = c.state := rfl
  rw [choice, funext (skipLoop_congr hstate)]
  rfl

theorem WellFormed.eq_choice (hc : c.WellFormed) {d : ℕ} {r : ρ}
    (h : (c.schedule regs).2 = some (d, r)) : d = c.choice := by
  obtain ⟨hup, hlock⟩ := schedule_some h
  obtain ⟨ticks, hschedule⟩ := schedule_eq hup hlock regs
  rw [hschedule, (hc.setTicks ticks).currentThread_pick regs, choice_setTicks] at h
  exact (congrArg Prod.fst (Option.some.inj h)).symm

/-! ## When a switch is fair -/

theorem fair_idle_iff : c.Fair c.idleThread ↔ ∀ t ∈ c.followers, c.state t ≠ .running := by
  constructor
  · intro h t ht hrun
    exact (h.passes t ht hrun).1 rfl
  · intro h
    exact ⟨.inl rfl, fun t ht hrun ↦ absurd hrun (h t ht)⟩

/-- A thread of the queue that is not blocked can always be switched to. -/
theorem WellFormed.fair_of_mem (hc : c.WellFormed) {d : ℕ} (hd : d ∈ c.runQueue)
    (h : c.state d ≠ .blocked) : c.Fair d :=
  ⟨.inr ⟨hd, h⟩, fun _ _ _ ↦ ⟨ne_of_mem_of_not_mem hd hc.idle_notMem, h⟩⟩

theorem WellFormed.not_fair_of_blocked (hc : c.WellFormed) {d : ℕ} (h : c.state d = .blocked) :
    ¬ c.Fair d := by
  rintro ⟨rfl | ⟨-, hne⟩, -⟩
  · rw [hc.idle_state] at h
    cases h
  · exact hne h

/-- Skipping a blocked thread is fair when it finds nobody: it stops at a blocked thread only, and
otherwise the CPU idles. -/
theorem WellFormed.fair_skipLoop_iff (hc : c.WellFormed) {x : ℕ} {rest : List ℕ}
    (hx : c.followers = x :: rest) (hblocked : c.state x = .blocked) :
    c.Fair ((c.skipLoop rest).getD c.idleThread) ↔
      ∀ y ∈ rest, c.state y ≠ .blocked ∧ c.state y ≠ .running := by
  cases hloop : c.skipLoop rest with
  | some d =>
    obtain ⟨hd, hstate⟩ := mem_of_skipLoop hloop
    exact iff_of_false (hc.not_fair_of_blocked hstate) fun h ↦ (h d hd).1 hstate
  | none =>
    have hnone := skipLoop_eq_none_iff.mp hloop
    rw [Option.getD_none, fair_idle_iff, hx, List.forall_mem_cons]
    constructor
    · rintro ⟨-, h⟩ y hy
      exact ⟨hnone y hy, h y hy⟩
    · intro h
      exact ⟨by simp [hblocked], fun y hy ↦ (h y hy).2⟩

/-- **When a switch is fair**: the current thread is dying and no running thread follows, or the
thread next in line is not blocked, or nobody behind it is blocked or running. -/
theorem fair_iff (hc : c.WellFormed) (regs : ρ) {d : ℕ} {r : ρ}
    (h : (c.schedule regs).2 = some (d, r)) : c.Fair d ↔ c.Clear := by
  rw [hc.eq_choice h, choice, Clear]
  obtain ht | ⟨t, ht⟩ := c.currentThread.eq_none_or_eq_some
  · have hnone : c.followers = [] := by rw [followers, ht]
    rw [ht]
    dsimp only
    rw [fair_idle_iff, hnone]
    simp
  · rw [ht]
    dsimp only
    simp only [Option.mem_def, Option.some.injEq, forall_eq']
    by_cases hdying : c.state t = .dying
    · rw [if_pos hdying, if_pos hdying, fair_idle_iff]
    · rw [if_neg hdying, if_neg hdying]
      cases hx : c.followers with
      | nil =>
        dsimp only
        rw [fair_idle_iff, hx]
        simp
      | cons x rest =>
        simp only [List.head?_cons, List.tail_cons, Option.some.injEq, forall_eq']
        by_cases hblocked : c.state x = .blocked
        · rw [if_pos hblocked, hc.fair_skipLoop_iff hx hblocked, forall_prop_of_true hblocked]
        · have hmem : x ∈ c.runQueue := c.followers_suffix.subset (hx ▸ List.mem_cons_self)
          rw [if_neg hblocked]
          exact iff_of_true (hc.fair_of_mem hmem hblocked) fun h ↦ absurd h hblocked

/-- Threads `1`, `2` and `3` of process `1` in the queue, and `0` the idle thread.  The first is
running and its time is up; `state` is that of the two behind it. -/
def threeThreads (state : ThreadState) : Cpu Unit where
  currentThread := some 1
  idleProcess := 0
  idleThread := 0
  runQueueLocked := false
  runQueueCount := 3
  runQueue := [1, 2, 3]
  threads t :=
    { parent := if t = 0 then 0 else 1
      state := if 1 < t then state else .running
      timeSlice := 0
      timeSliceDefault := if t = 0 then 0 else 1
      registers := () }
  activeTicks _ := 0

theorem threeThreads_wellFormed (state : ThreadState) : (threeThreads state).WellFormed where
  count := rfl
  nodup := show [1, 2, 3].Nodup by decide
  parent := show ∀ t ∈ [1, 2, 3], (if t = 0 then 0 else 1) ≠ 0 by decide
  idle_parent := rfl
  idle_state := rfl
  current := show ∀ t ∈ some 1, t ∈ [1, 2, 3] ∨ t = 0 by simp

/-- With both running, the second is switched to. -/
theorem running_dispatched : ((threeThreads .running).schedule ()).2 = some (2, ()) ∧
    (threeThreads .running).Fair 2 := by
  have hclear : (threeThreads .running).Clear := by
    intro t ht
    cases ht
    decide
  exact ⟨rfl, (fair_iff (threeThreads_wellFormed .running) () rfl).mpr hclear⟩

/-- With both blocked, the third is switched to, blocked as it is. -/
theorem blocked_dispatched : (threeThreads .blocked).WellFormed ∧
    ((threeThreads .blocked).schedule ()).2 = some (3, ()) ∧
    (threeThreads .blocked).state 3 = .blocked ∧ ¬ (threeThreads .blocked).Fair 3 := by
  have hwell := threeThreads_wellFormed .blocked
  have h : (threeThreads .blocked).state 3 = .blocked := rfl
  exact ⟨hwell, rfl, h, hwell.not_fair_of_blocked h⟩

/-! ## A CPU stays in order -/

theorem WellFormed.setCurrent (hc : c.WellFormed) {o : Option ℕ}
    (h : ∀ t ∈ o, t ∈ c.runQueue ∨ t = c.idleThread) :
    ({ c with currentThread := o } : Cpu ρ).WellFormed :=
  ⟨hc.count, hc.nodup, hc.parent, hc.idle_parent, hc.idle_state, h⟩

/-- The time and the registers of a thread are free to change. -/
theorem WellFormed.setThread (hc : c.WellFormed) (t : ℕ) (thread : Thread ρ)
    (hstate : thread.state = c.state t) (hparent : thread.parent = (c.threads t).parent) :
    ({ c with threads := Function.update c.threads t thread } : Cpu ρ).WellFormed := by
  have hparents : ∀ x, (Function.update c.threads t thread x).parent = (c.threads x).parent := by
    intro x
    by_cases hx : x = t
    · rw [hx, Function.update_self, hparent]
    · rw [Function.update_of_ne hx]
  refine ⟨hc.count, hc.nodup, fun x hx ↦ ?_, (hparents _).trans hc.idle_parent, ?_, hc.current⟩
  · exact ne_of_eq_of_ne (hparents x) (hc.parent x hx)
  · rw [c.state_update t hstate]
    exact hc.idle_state

/-- A dying thread is one of the queue, and is taken out of it. -/
theorem WellFormed.erase (hc : c.WellFormed) {t : ℕ} (ht : t ∈ c.runQueue) :
    ({ c with
      runQueue := c.runQueue.erase t
      runQueueCount := c.runQueueCount - 1
      currentThread := some c.idleThread } : Cpu ρ).WellFormed where
  count := by
    have hpos := List.length_pos_of_mem ht
    have hcount := hc.count
    dsimp only
    rw [List.length_erase_of_mem ht]
    bv_omega
  nodup := hc.nodup.erase t
  parent x hx := hc.parent x (List.mem_of_mem_erase hx)
  idle_parent := hc.idle_parent
  idle_state := hc.idle_state
  current _ hx := .inr (Option.some.inj hx).symm

theorem WellFormed.leave (hc : c.WellFormed) {t : ℕ} (ht : c.currentThread = some t) (regs : ρ) :
    (c.leave t regs).WellFormed := by
  have hhead : ∀ x ∈ c.followers.head?, x ∈ c.runQueue ∨ x = c.idleThread := fun x hx ↦
    .inl (c.followers_suffix.subset (List.mem_of_head? hx))
  by_cases hdying : c.state t = .dying
  · rw [leave_of_dying hdying]
    refine hc.erase ((hc.current t ht).resolve_right ?_)
    rintro rfl
    rw [hc.idle_state] at hdying
    cases hdying
  · have hcurrent := (hc.currentThread_leave ht hdying regs).1
    by_cases hidle : t = c.idleThread
    · rw [leave_of_parent_eq hdying (hidle ▸ hc.idle_parent)] at hcurrent ⊢
      exact hc.setCurrent (by rwa [← hcurrent] at hhead)
    · rw [leave_of_parent_ne hdying ((hc.parent_ne_iff ht).mpr hidle)] at hcurrent ⊢
      rw [← hcurrent] at hhead
      exact (hc.setThread t { c.threads t with
        registers := regs
        timeSlice := (c.threads t).timeSliceDefault } rfl rfl).setCurrent hhead

theorem WellFormed.skipBlocked (hc : c.WellFormed) : c.skipBlocked.WellFormed := by
  obtain ht | ⟨t, ht⟩ := c.currentThread.eq_none_or_eq_some
  · have hnone : c.skipBlocked = c := by rw [Cpu.skipBlocked, ht]
    rwa [hnone]
  · rw [skipBlocked_eq ht]
    refine hc.setCurrent fun d hd ↦ ?_
    cases hd
    split
    · cases hloop : c.skipLoop (behind c.runQueue t) with
      | none => exact .inr rfl
      | some d => exact .inl ((behind_suffix _ _).subset (mem_of_skipLoop hloop).1)
    · exact hc.current t ht

theorem WellFormed.pick (hc : c.WellFormed) (regs : ρ) : (c.pick regs).WellFormed := by
  have hidle : ({ c with currentThread := some c.idleThread } : Cpu ρ).WellFormed :=
    hc.setCurrent fun t ht ↦ .inr (Option.some.inj ht).symm
  obtain ht | ⟨t, ht⟩ := c.currentThread.eq_none_or_eq_some
  · rwa [pick_of_none ht]
  · by_cases hcount : c.runQueueCount = 0
    · rwa [pick_of_count hcount]
    · rw [pick_eq_leave ht hcount]
      exact (hc.leave ht regs).skipBlocked

/-- **The scheduler keeps the CPU in order.** -/
theorem WellFormed.schedule (hc : c.WellFormed) (regs : ρ) : (c.schedule regs).1.WellFormed := by
  by_cases h : ∀ t ∈ c.currentThread, (c.threads t).timeSlice = 0
  · obtain ⟨ticks, hcharge⟩ := charge_of_up h
    rw [Cpu.schedule, hcharge]
    dsimp only
    split
    · exact hc.setTicks ticks
    · exact (hc.setTicks ticks).pick regs
  · push Not at h
    obtain ⟨t, ht, hne⟩ := h
    have hpos : 0 < (c.threads t).timeSlice := by bv_omega
    rw [schedule_of_pos ht hpos]
    exact (hc.setThread t { c.threads t with
      timeSlice := (c.threads t).timeSlice - 1 } rfl rfl).setTicks _

end Cpu

end Borrrdex
