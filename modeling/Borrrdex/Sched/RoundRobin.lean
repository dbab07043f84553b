import Borrrdex.Sched.Schedule
import Mathlib.Tactic

/-!
# Round robin

What the scheduler does over many ticks.  The calls of `schedule` on a CPU form a run, `calls`, and
some of them switch.  With every thread in the queue running and nobody inserted or removed, the
threads take turns in the order of the queue, each for its time slice and one call more, and each is
resumed with the registers it was put aside with.

`Turn` is the invariant: whose turn it is and how many ticks of it are left.
-/

set_option autoImplicit false

namespace Borrrdex

namespace Cpu

variable {ρ : Type} {c s : Cpu ρ} {regs : ρ}

/-! ## Time slices -/

/-- A thread that waits in the queue has its whole time slice before it. -/
def Fresh (c : Cpu ρ) : Prop :=
  ∀ t ∈ c.runQueue, c.currentThread ≠ some t →
    (c.threads t).timeSlice = (c.threads t).timeSliceDefault

/-- `insert_new_thread`, on the CPU it has chosen. -/
def insertNewThread (c : Cpu ρ) (t : ℕ) : Cpu ρ :=
  { c with
    runQueue := c.runQueue ++ [t]
    runQueueCount := c.runQueueCount + 1 }

theorem WellFormed.insertNewThread (hc : c.WellFormed) {t : ℕ} (ht : t ∉ c.runQueue)
    (hparent : (c.threads t).parent ≠ c.idleProcess) (hlength : c.runQueue.length + 1 < 2 ^ 64) :
    (c.insertNewThread t).WellFormed where
  count := by
    have hcount := hc.count
    simp only [Cpu.insertNewThread, List.length_append, List.length_singleton]
    bv_omega
  nodup := by
    refine List.nodup_append.mpr ⟨hc.nodup, List.nodup_singleton t, fun x hx y hy ↦ ?_⟩
    rw [List.mem_singleton.mp hy]
    exact ne_of_mem_of_not_mem hx ht
  parent x hx := by
    obtain hx | hx := List.mem_append.mp hx
    · exact hc.parent x hx
    · rw [List.mem_singleton.mp hx]
      exact hparent
  idle_parent := hc.idle_parent
  idle_state := hc.idle_state
  current x hx := (hc.current x hx).imp_left (List.mem_append_left _)

/-- New threads come with a whole time slice. -/
theorem Fresh.insertNewThread (hc : c.Fresh) {t : ℕ}
    (ht : (c.threads t).timeSlice = (c.threads t).timeSliceDefault) :
    (c.insertNewThread t).Fresh := by
  intro x hx hne
  obtain hx | hx := List.mem_append.mp hx
  · exact hc x hx hne
  · rw [List.mem_singleton.mp hx]
    exact ht

theorem exists_skipBlocked_eq (c : Cpu ρ) :
    ∃ o, c.skipBlocked = { c with currentThread := o } := by
  rw [skipBlocked]
  split
  · exact ⟨c.currentThread, rfl⟩
  · split
    · exact ⟨_, rfl⟩
    · exact ⟨c.currentThread, rfl⟩

theorem WellFormed.fresh_leave (hc : c.WellFormed) (hfresh : c.Fresh) {t : ℕ}
    (ht : c.currentThread = some t) (regs : ρ) : ∀ x ∈ (c.leave t regs).runQueue,
      ((c.leave t regs).threads x).timeSlice = ((c.leave t regs).threads x).timeSliceDefault := by
  by_cases hdying : c.state t = .dying
  · rw [leave_of_dying hdying]
    intro x hx
    obtain ⟨hne, hmem⟩ := hc.nodup.mem_erase_iff.mp hx
    exact hfresh x hmem (by simpa [ht] using hne.symm)
  · by_cases hidle : t = c.idleThread
    · rw [leave_of_parent_eq hdying (hidle ▸ hc.idle_parent)]
      intro x hx
      refine hfresh x hx ?_
      rw [ht, hidle]
      exact fun h ↦ hc.idle_notMem (Option.some.inj h ▸ hx)
    · rw [leave_of_parent_ne hdying ((hc.parent_ne_iff ht).mpr hidle)]
      intro x hx
      dsimp only
      by_cases hxt : x = t
      · rw [hxt, Function.update_self]
      · rw [Function.update_of_ne hxt]
        exact hfresh x hx (by simpa [ht] using Ne.symm hxt)

/-- After a switch every thread in the queue has its whole time slice before it. -/
theorem WellFormed.fresh_pick (hc : c.WellFormed) (hfresh : c.Fresh) (regs : ρ) :
    ∀ t ∈ (c.pick regs).runQueue,
      ((c.pick regs).threads t).timeSlice = ((c.pick regs).threads t).timeSliceDefault := by
  obtain ht | ⟨t, ht⟩ := c.currentThread.eq_none_or_eq_some
  · rw [pick_of_none ht]
    exact fun x hx ↦ hfresh x hx (by simp [ht])
  · by_cases hcount : c.runQueueCount = 0
    · rw [pick_of_count hcount]
      intro x hx
      rw [hc.runQueue_eq_nil_iff.mpr hcount] at hx
      cases hx
    · obtain ⟨o, hskip⟩ := (c.leave t regs).exists_skipBlocked_eq
      rw [pick_eq_leave ht hcount, hskip]
      exact hc.fresh_leave hfresh ht regs

/-- **The scheduler keeps the time slices of those that wait.** -/
theorem WellFormed.fresh_schedule (hc : c.WellFormed) (hfresh : c.Fresh) (regs : ρ) :
    (c.schedule regs).1.Fresh := by
  by_cases h : ∀ t ∈ c.currentThread, (c.threads t).timeSlice = 0
  · obtain ⟨ticks, hcharge⟩ := charge_of_up h
    rw [Cpu.schedule, hcharge]
    dsimp only
    split
    · exact hfresh
    · exact fun x hx _ ↦ (hc.setTicks ticks).fresh_pick hfresh regs x hx
  · push Not at h
    obtain ⟨t, ht, hne⟩ := h
    have hpos : 0 < (c.threads t).timeSlice := by bv_omega
    rw [schedule_of_pos ht hpos]
    intro x hx hcurrent
    have hxt : x ≠ t := fun h ↦ hcurrent (h ▸ ht)
    simp only [Function.update_of_ne hxt]
    exact hfresh x hx hcurrent

/-! ## A turn -/

/-- The thread whose turn is the `j`-th. -/
def turn (c : Cpu ρ) (j : ℕ) : Option ℕ := c.runQueue[j % c.runQueue.length]?

/-- The ticks of the `j`-th turn, but for the last, which switches. -/
def slice (c : Cpu ρ) (j : ℕ) : ℕ :=
  (c.turn j).elim 0 fun t ↦ (c.threads t).timeSliceDefault.toNat

/-- **The invariant of a run from `c`**: in `s` it is the `j`-th turn, with `m` ticks left. -/
structure Turn (c : Cpu ρ) (j m : ℕ) (s : Cpu ρ) : Prop where
  wellFormed : s.WellFormed
  unlocked : s.runQueueLocked = false
  runQueue : s.runQueue = c.runQueue
  idleThread : s.idleThread = c.idleThread
  running : ∀ t ∈ s.runQueue, s.state t = .running
  fresh : s.Fresh
  timeSliceDefault : ∀ t, (s.threads t).timeSliceDefault = (c.threads t).timeSliceDefault
  currentThread : s.currentThread = c.turn j
  nonempty : c.runQueue ≠ []
  ticks : ∀ t ∈ s.currentThread, (s.threads t).timeSlice.toNat = m

/-- The one behind the `k`-th, or the first, is the one after it around the ring. -/
theorem head_behind {queue : List ℕ} (h : queue.Nodup) {k : ℕ} (hk : k < queue.length) :
    (behind queue queue[k]).head?.or queue.head? = queue[(k + 1) % queue.length]? := by
  have hsplit : queue.take k ++ queue[k] :: queue.drop (k + 1) = queue := by
    rw [List.getElem_cons_drop, List.take_append_drop]
  have hbehind : behind queue queue[k] = queue.drop (k + 1) := by
    have hmem : queue[k] ∉ queue.take k := fun hmem ↦ by
      rw [← hsplit] at h
      exact (List.nodup_append.mp h).2.2 _ hmem _ List.mem_cons_self rfl
    conv_lhs => arg 1; rw [← hsplit]
    exact behind_append hmem _
  rw [hbehind, List.head?_drop]
  obtain hlt | heq : k + 1 < queue.length ∨ k + 1 = queue.length := by omega
  · rw [Nat.mod_eq_of_lt hlt, List.getElem?_eq_getElem hlt, Option.some_or]
  · rw [heq, Nat.mod_self, List.getElem?_eq_none le_rfl, Option.none_or, List.head?_eq_getElem?]

/-- What an update of a thread leaves as it was, it leaves so for all. -/
theorem update_eq {α : Type} (field : Thread ρ → α) {threads : ℕ → Thread ρ} {t : ℕ}
    {thread : Thread ρ} (h : field thread = field (threads t)) (x : ℕ) :
    field (Function.update threads t thread x) = field (threads x) := by
  by_cases hx : x = t
  · rw [hx, Function.update_self, h]
  · rw [Function.update_of_ne hx]

namespace Turn

variable {j m : ℕ}

/-- The thread whose turn it is. -/
theorem exists_current (h : Turn c j m s) : ∃ t ∈ s.runQueue, s.currentThread = some t := by
  have hj : j % c.runQueue.length < c.runQueue.length :=
    Nat.mod_lt _ (List.length_pos_iff.mpr h.nonempty)
  refine ⟨c.runQueue[j % c.runQueue.length], ?_, ?_⟩
  · rw [h.runQueue]
    exact List.getElem_mem hj
  · rw [h.currentThread, turn, List.getElem?_eq_getElem hj]

theorem head_followers (h : Turn c j m s) : s.followers.head? = c.turn (j + 1) := by
  have hj : j % c.runQueue.length < c.runQueue.length :=
    Nat.mod_lt _ (List.length_pos_iff.mpr h.nonempty)
  have hcurrent : s.currentThread = some c.runQueue[j % c.runQueue.length] := by
    rw [h.currentThread, turn, List.getElem?_eq_getElem hj]
  rw [WellFormed.head_followers hcurrent, h.runQueue,
    head_behind (h.runQueue ▸ h.wellFormed.nodup) hj, turn, Nat.mod_add_mod]

theorem mem_turn (h : Turn c j m s) {i x : ℕ} (hx : c.turn i = some x) : x ∈ s.runQueue := by
  rw [h.runQueue]
  exact List.mem_of_getElem? hx

theorem exists_next (h : Turn c j m s) : ∃ x, c.turn (j + 1) = some x :=
  ⟨_, List.getElem?_eq_getElem (Nat.mod_lt _ (List.length_pos_iff.mpr h.nonempty))⟩

/-- A tick before the last. -/
theorem schedule_succ (h : Turn c j (m + 1) s) {t : ℕ} (ht : s.currentThread = some t)
    (regs : ρ) : s.schedule regs =
    ({ s with
      activeTicks := Function.update s.activeTicks (s.threads t).parent
        (s.activeTicks (s.threads t).parent + 1)
      threads := Function.update s.threads t
        { s.threads t with timeSlice := (s.threads t).timeSlice - 1 } }, none) := by
  have hticks := h.ticks t ht
  exact schedule_of_pos ht (by bv_omega) regs

/-- The last tick: the thread is put aside and the next one is resumed. -/
theorem schedule_zero (h : Turn c j 0 s) {t x : ℕ} (ht : s.currentThread = some t)
    (hx : c.turn (j + 1) = some x) (regs : ρ) : ∃ ticks threads,
    threads = Function.update s.threads t
      { s.threads t with registers := regs, timeSlice := (s.threads t).timeSliceDefault } ∧
    s.schedule regs =
      ({ s with activeTicks := ticks, threads := threads, currentThread := some x },
        some (x, (threads x).registers)) := by
  have hup : ∀ t ∈ s.currentThread, (s.threads t).timeSlice = 0 := fun t ht ↦
    BitVec.eq_of_toNat_eq (h.ticks t ht)
  obtain ⟨ticks, hschedule⟩ := schedule_eq hup h.unlocked regs
  refine ⟨ticks, _, rfl, ?_⟩
  have hmem : t ∈ s.runQueue := by
    obtain ⟨y, hy, hcurrent⟩ := h.exists_current
    rwa [Option.some.inj (ht.symm.trans hcurrent)]
  have hhead := h.head_followers.trans hx
  have hxmem : x ∈ s.runQueue := s.followers_suffix.subset (List.mem_of_head? hhead)
  have hcount : s.runQueueCount ≠ 0 :=
    h.wellFormed.runQueue_eq_nil_iff.not.mp (List.ne_nil_of_mem hmem)
  have hdying : s.state t ≠ .dying := ne_of_eq_of_ne (h.running t hmem) (by decide)
  rw [WellFormed.head_followers ht] at hhead
  have hpick : ({ s with activeTicks := ticks } : Cpu ρ).pick regs =
      { s with
        activeTicks := ticks
        threads := Function.update s.threads t
          { s.threads t with registers := regs, timeSlice := (s.threads t).timeSliceDefault }
        currentThread := some x } := by
    rw [pick_eq_leave (c := { s with activeTicks := ticks }) ht hcount,
      leave_of_parent_ne (c := { s with activeTicks := ticks }) hdying
        (h.wellFormed.parent t hmem)]
    dsimp only
    rw [hhead, skipBlocked_eq rfl, if_neg]
    have hstate : (Function.update s.threads t { s.threads t with
        registers := regs, timeSlice := (s.threads t).timeSliceDefault } x).state = s.state x :=
      update_eq Thread.state (by rfl) x
    exact ne_of_eq_of_ne (hstate.trans (h.running x hxmem)) (by decide)
  rw [hschedule, hpick]
  rfl

/-- A tick before the last leaves the turn to the thread. -/
theorem tick (h : Turn c j (m + 1) s) (regs : ρ) : Turn c j m (s.schedule regs).1 := by
  obtain ⟨t, -, ht⟩ := h.exists_current
  have hwell := h.wellFormed.schedule regs
  have hfresh := h.wellFormed.fresh_schedule h.fresh regs
  rw [h.schedule_succ ht] at hwell hfresh ⊢
  exact {
    wellFormed := hwell
    fresh := hfresh
    unlocked := h.unlocked
    runQueue := h.runQueue
    idleThread := h.idleThread
    running := fun x hx ↦ (update_eq Thread.state (by rfl) x).trans (h.running x hx)
    timeSliceDefault := fun x ↦
      (update_eq Thread.timeSliceDefault (by rfl) x).trans (h.timeSliceDefault x)
    currentThread := h.currentThread
    nonempty := h.nonempty
    ticks := by
      intro x hx
      obtain rfl : t = x := Option.some.inj (ht.symm.trans hx)
      have hticks := h.ticks t ht
      dsimp only
      rw [Function.update_self]
      dsimp only
      bv_omega }

/-- The last tick hands the turn to the next thread, with its whole time slice. -/
theorem switch (h : Turn c j 0 s) (regs : ρ) :
    Turn c (j + 1) (c.slice (j + 1)) (s.schedule regs).1 := by
  obtain ⟨t, hmem, ht⟩ := h.exists_current
  obtain ⟨x, hx⟩ := h.exists_next
  obtain ⟨ticks, threads, hthreads, hschedule⟩ := h.schedule_zero ht hx regs
  have hwell := h.wellFormed.schedule regs
  have hfresh := h.wellFormed.fresh_schedule h.fresh regs
  rw [hschedule] at hwell hfresh ⊢
  exact {
    wellFormed := hwell
    fresh := hfresh
    unlocked := h.unlocked
    runQueue := h.runQueue
    idleThread := h.idleThread
    running := fun y hy ↦ by
      rw [← h.running y hy, state, hthreads]
      exact update_eq Thread.state (by rfl) y
    timeSliceDefault := fun y ↦ by
      rw [← h.timeSliceDefault y, hthreads]
      exact update_eq Thread.timeSliceDefault (by rfl) y
    currentThread := hx.symm
    nonempty := h.nonempty
    ticks := by
      intro y hy
      obtain rfl : x = y := Option.some.inj hy
      have hslice : c.slice (j + 1) = (c.threads x).timeSliceDefault.toNat := by
        rw [slice, hx]
        rfl
      rw [hslice, ← h.timeSliceDefault x, hthreads]
      dsimp only
      by_cases hxt : x = t
      · rw [hxt, Function.update_self]
      · rw [Function.update_of_ne hxt, h.fresh x (h.mem_turn hx)
          (by simpa [ht] using Ne.symm hxt)] }

/-- A call that does not switch leaves all registers, and one that does saves those of the thread
it puts aside, only. -/
theorem registers (h : Turn c j m s) (regs : ρ) (t : ℕ) :
    ((s.schedule regs).1.threads t).registers =
      if s.currentThread = some t ∧ (s.schedule regs).2.isSome then regs
      else (s.threads t).registers := by
  obtain ⟨y, -, hy⟩ := h.exists_current
  cases m with
  | succ m =>
    rw [h.schedule_succ hy, if_neg (by simp)]
    exact update_eq Thread.registers (by rfl) t
  | zero =>
    obtain ⟨x, hx⟩ := h.exists_next
    obtain ⟨ticks, threads, hthreads, hschedule⟩ := h.schedule_zero hy hx regs
    rw [hschedule, hthreads]
    dsimp only
    by_cases hyt : t = y
    · rw [if_pos ⟨hyt ▸ hy, rfl⟩, hyt, Function.update_self]
    · rw [if_neg (fun h ↦ hyt (Option.some.inj (h.1.symm.trans hy))), Function.update_of_ne hyt]

/-- Only the last tick of a turn switches, to the next thread. -/
theorem schedule_snd (h : Turn c j m s) (regs : ρ) :
    (s.schedule regs).2.map Prod.fst = if m = 0 then c.turn (j + 1) else none := by
  obtain ⟨y, -, hy⟩ := h.exists_current
  cases m with
  | succ m => rw [h.schedule_succ hy, if_neg m.succ_ne_zero, Option.map_none]
  | zero =>
    obtain ⟨x, hx⟩ := h.exists_next
    obtain ⟨ticks, threads, -, hschedule⟩ := h.schedule_zero hy hx regs
    rw [hschedule, if_pos rfl, hx, Option.map_some]

end Turn

/-! ## A run -/

/-- The CPU before the `i`-th call of `schedule`, with the registers that are passed to it. -/
def calls (c : Cpu ρ) (regs : ℕ → ρ) : ℕ → Cpu ρ
  | 0 => c
  | i + 1 => ((calls c regs i).schedule (regs i)).1

/-- The thread and the registers that the `i`-th call switches to, if it does. -/
def dispatched (c : Cpu ρ) (regs : ℕ → ρ) (i : ℕ) : Option (ℕ × ρ) :=
  ((c.calls regs i).schedule (regs i)).2

/-- The `i`-th call switches and puts `t` aside. -/
def PutAside (c : Cpu ρ) (regs : ℕ → ρ) (t i : ℕ) : Prop :=
  (c.calls regs i).currentThread = some t ∧ (c.dispatched regs i).isSome

/-- The call that is the last of the `j`-th turn. -/
def switchCall (c : Cpu ρ) : ℕ → ℕ
  | 0 => c.slice 0
  | j + 1 => switchCall c j + c.slice (j + 1) + 1

/-- The threads of as many switches as there are threads, from the `j`-th. -/
def window (c : Cpu ρ) (regs : ℕ → ρ) (j : ℕ) : List (Option ℕ) :=
  (List.range c.runQueue.length).map fun i ↦
    (c.dispatched regs (c.switchCall (j + i))).map Prod.fst

/-- **Round robin**, from a switch to the front thread on. -/
structure RoundRobin (c : Cpu ρ) (regs : ℕ → ρ) : Prop where
  /-- The calls that switch are the last of each turn, and no other. -/
  switches : ∀ i, (c.dispatched regs i).isSome ↔ ∃ j, i = c.switchCall j
  /-- A thread that is switched to has its time slice and one call more. -/
  slices : ∀ j t r, c.dispatched regs (c.switchCall j) = some (t, r) →
    c.switchCall (j + 1) = c.switchCall j + ((c.threads t).timeSliceDefault.toNat + 1)
  /-- The threads come in the order of the queue, around and around. -/
  order : ∀ j, c.window regs j = (c.runQueue.rotate (j + 1)).map some
  once : ∀ j, ∀ t ∈ c.runQueue, (c.window regs j).count (some t) = 1
  idle : ∀ j, some c.idleThread ∉ c.window regs j
  /-- A thread is resumed with the registers that were passed when it was last put aside. -/
  context : ∀ t i k r, c.PutAside regs t i → i ≤ k → (∀ l, i < l → l ≤ k → ¬ c.PutAside regs t l) →
    c.dispatched regs k = some (t, r) → r = regs i

section Run

variable {regs : ℕ → ρ}

/-- Every call is in some turn. -/
theorem exists_turn (h : Turn c 0 (c.slice 0) c) (regs : ℕ → ρ) (i : ℕ) :
    ∃ j m, Turn c j m (c.calls regs i) ∧ i + m = c.switchCall j ∧
      ∀ k < j, c.switchCall k < i := by
  induction i with
  | zero => exact ⟨0, c.slice 0, h, Nat.zero_add _, fun k hk ↦ absurd hk k.not_lt_zero⟩
  | succ i ih =>
    obtain ⟨j, m, hturn, hcall, hbefore⟩ := ih
    cases m with
    | succ m =>
      refine ⟨j, m, hturn.tick (regs i), ?_, fun k hk ↦ (hbefore k hk).trans i.lt_succ_self⟩
      omega
    | zero =>
      refine ⟨j + 1, c.slice (j + 1), hturn.switch (regs i), ?_, fun k hk ↦ ?_⟩
      · rw [switchCall]
        omega
      · obtain hlt | rfl := Nat.lt_succ_iff_lt_or_eq.mp hk
        · exact (hbefore k hlt).trans i.lt_succ_self
        · omega

theorem switchCall_strictMono (c : Cpu ρ) : StrictMono c.switchCall :=
  strictMono_nat_of_lt_succ fun j ↦ by
    rw [switchCall]
    omega

/-- The last call of a turn is one with no ticks left. -/
theorem turn_switchCall (h : Turn c 0 (c.slice 0) c) (regs : ℕ → ρ) (j : ℕ) :
    Turn c j 0 (c.calls regs (c.switchCall j)) := by
  obtain ⟨k, m, hturn, hcall, hbefore⟩ := exists_turn h regs (c.switchCall j)
  have hle : j ≤ k := c.switchCall_strictMono.le_iff_le.mp (by omega)
  have hge : k ≤ j := not_lt.mp fun hlt ↦ (hbefore j hlt).false
  obtain rfl : j = k := le_antisymm hle hge
  obtain rfl : m = 0 := by omega
  exact hturn

theorem dispatched_switchCall (h : Turn c 0 (c.slice 0) c) (regs : ℕ → ρ) (j : ℕ) :
    (c.dispatched regs (c.switchCall j)).map Prod.fst = c.turn (j + 1) :=
  ((turn_switchCall h regs j).schedule_snd _).trans (if_pos rfl)

theorem isSome_dispatched_iff (h : Turn c 0 (c.slice 0) c) (i : ℕ) :
    (c.dispatched regs i).isSome ↔ ∃ j, i = c.switchCall j := by
  constructor
  · intro hsome
    obtain ⟨j, m, hturn, hcall, -⟩ := exists_turn h regs i
    have hsnd := hturn.schedule_snd (regs i)
    cases m with
    | zero => exact ⟨j, hcall⟩
    | succ m =>
      rw [if_neg m.succ_ne_zero, Option.map_eq_none_iff] at hsnd
      rw [dispatched, hsnd] at hsome
      cases hsome
  · rintro ⟨j, rfl⟩
    obtain ⟨x, hx⟩ := (turn_switchCall h regs j).exists_next
    rw [← Option.isSome_map, dispatched_switchCall h, hx]
    rfl

theorem window_eq (h : Turn c 0 (c.slice 0) c) (j : ℕ) :
    c.window regs j = (c.runQueue.rotate (j + 1)).map some := by
  refine List.ext_getElem (by simp [window]) fun i hi _ ↦ ?_
  simp only [window, List.getElem_map, List.getElem_range]
  have hlt : (i + (j + 1)) % c.runQueue.length < c.runQueue.length :=
    Nat.mod_lt _ (List.length_pos_iff.mpr h.nonempty)
  rw [dispatched_switchCall h, List.getElem_rotate, turn, Nat.add_comm j i, Nat.add_assoc,
    List.getElem?_eq_getElem hlt]

/-- The registers of a thread stay as they were passed when it was put aside. -/
theorem registers_calls (h : Turn c 0 (c.slice 0) c) {t i k : ℕ} (hi : c.PutAside regs t i)
    (hk : i ≤ k) (hbetween : ∀ l, i < l → l ≤ k → ¬ c.PutAside regs t l) :
    ((c.calls regs (k + 1)).threads t).registers = regs i := by
  induction k, hk using Nat.le_induction with
  | base =>
    obtain ⟨j, m, hturn, -⟩ := exists_turn h regs i
    exact (hturn.registers (regs i) t).trans (if_pos hi)
  | succ k hk ih =>
    obtain ⟨j, m, hturn, -⟩ := exists_turn h regs (k + 1)
    refine (hturn.registers (regs (k + 1)) t).trans ?_
    refine (if_neg (hbetween (k + 1) (Nat.lt_succ_of_le hk) le_rfl)).trans ?_
    exact ih fun l hl hle ↦ hbetween l hl (hle.trans k.le_succ)

end Run

theorem dispatched_registers {regs : ℕ → ρ} {k t : ℕ} {r : ρ}
    (h : c.dispatched regs k = some (t, r)) :
    ((c.calls regs (k + 1)).threads t).registers = r := by
  obtain ⟨hup, hlock⟩ := schedule_some h
  obtain ⟨ticks, hschedule⟩ := schedule_eq hup hlock (regs k)
  rw [dispatched, hschedule] at h
  obtain ⟨x, -, hx⟩ := Option.map_eq_some_iff.mp h
  rw [calls, hschedule]
  obtain ⟨rfl, rfl⟩ := Prod.mk.inj hx
  rfl

/-- In a turn that begins, the threads go round robin. -/
theorem Turn.completes (h : Turn c 0 (c.slice 0) c) (regs : ℕ → ρ) : c.RoundRobin regs where
  switches := isSome_dispatched_iff h
  slices j t r hd := by
    have hturn := dispatched_switchCall h regs j
    rw [hd, Option.map_some] at hturn
    rw [switchCall, slice, ← hturn]
    rfl
  order := window_eq h
  once j t ht := by
    rw [window_eq h, List.count_map_of_injective _ _ (Option.some_injective ℕ)]
    exact List.count_eq_one_of_mem (List.nodup_rotate.mpr h.wellFormed.nodup)
      (List.mem_rotate.mpr ht)
  idle j hmem := by
    rw [window_eq h] at hmem
    obtain ⟨x, hx, heq⟩ := List.mem_map.mp hmem
    rw [Option.some.inj heq] at hx
    exact h.wellFormed.idle_notMem (List.mem_rotate.mp hx)
  context t i k r hi hk hbetween hd :=
    (dispatched_registers hd).symm.trans (registers_calls h hi hk hbetween)

/-- Unless the current thread is dying, a switch leaves the queue and the states. -/
theorem exists_pick_eq (h : ∀ t ∈ c.currentThread, c.state t ≠ .dying) (regs : ρ) :
    ∃ threads o, c.pick regs = { c with threads := threads, currentThread := o } ∧
      ∀ x, (threads x).state = c.state x ∧
        (threads x).timeSliceDefault = (c.threads x).timeSliceDefault := by
  obtain ht | ⟨t, ht⟩ := c.currentThread.eq_none_or_eq_some
  · exact ⟨c.threads, _, pick_of_none ht regs, fun _ ↦ ⟨rfl, rfl⟩⟩
  · by_cases hcount : c.runQueueCount = 0
    · exact ⟨c.threads, _, pick_of_count hcount regs, fun _ ↦ ⟨rfl, rfl⟩⟩
    · obtain ⟨o, hskip⟩ := (c.leave t regs).exists_skipBlocked_eq
      rw [pick_eq_leave ht hcount, hskip]
      by_cases hparent : (c.threads t).parent = c.idleProcess
      · rw [leave_of_parent_eq (h t ht) hparent]
        exact ⟨c.threads, o, rfl, fun _ ↦ ⟨rfl, rfl⟩⟩
      · rw [leave_of_parent_ne (h t ht) hparent]
        exact ⟨_, o, rfl, fun x ↦ ⟨update_eq Thread.state (by rfl) x,
          update_eq Thread.timeSliceDefault (by rfl) x⟩⟩

/-- A switch to the front thread begins a turn. -/
theorem turn_schedule (hc : c.WellFormed) (hfresh : c.Fresh)
    (hrunning : ∀ t ∈ c.runQueue, c.state t = .running) {d : ℕ} {r : ρ}
    (hd : c.runQueue.head? = some d) (h : (c.schedule regs).2 = some (d, r)) :
    Turn (c.schedule regs).1 0 ((c.schedule regs).1.slice 0) (c.schedule regs).1 := by
  have halive : ∀ t ∈ c.currentThread, c.state t ≠ .dying := by
    intro t ht
    obtain hmem | rfl := hc.current t ht
    · exact ne_of_eq_of_ne (hrunning t hmem) (by decide)
    · exact ne_of_eq_of_ne hc.idle_state (by decide)
  obtain ⟨hup, hlock⟩ := schedule_some h
  obtain ⟨ticks, hschedule⟩ := schedule_eq hup hlock regs
  have hwell := hc.schedule regs
  have hall := (hc.setTicks ticks).fresh_pick hfresh regs
  have hcurrent := (hc.setTicks ticks).currentThread_pick regs
  rw [choice_setTicks, ← hc.eq_choice h] at hcurrent
  obtain ⟨threads, o, hpick, hthreads⟩ :=
    exists_pick_eq (c := { c with activeTicks := ticks }) halive regs
  rw [hschedule, hpick] at hwell ⊢
  rw [hpick] at hall hcurrent
  dsimp only at hcurrent
  have hturn : (⟨o, c.idleProcess, c.idleThread, c.runQueueLocked, c.runQueueCount, c.runQueue,
      threads, ticks⟩ : Cpu ρ).turn 0 = some d := by
    rw [turn, Nat.zero_mod, ← List.head?_eq_getElem?]
    exact hd
  exact {
    wellFormed := hwell
    fresh := fun t ht _ ↦ hall t ht
    unlocked := hlock
    runQueue := rfl
    idleThread := rfl
    running := fun t ht ↦ (hthreads t).1.trans (hrunning t ht)
    timeSliceDefault := fun _ ↦ rfl
    currentThread := hcurrent.trans hturn.symm
    nonempty := List.ne_nil_of_mem (List.mem_of_head? hd)
    ticks := by
      intro t ht
      obtain rfl : d = t := Option.some.inj (hcurrent.symm.trans ht)
      rw [slice, hturn, hall d (List.mem_of_head? hd)]
      rfl }

/-- **Round robin.**  On a CPU whose threads are all running, from the moment the front thread is
switched to, the threads take turns. -/
theorem roundRobin (hc : c.WellFormed) (hfresh : c.Fresh)
    (hrunning : ∀ t ∈ c.runQueue, c.state t = .running) {d : ℕ} {r : ρ}
    (hd : c.runQueue.head? = some d) (first : ρ) (h : (c.schedule first).2 = some (d, r))
    (regs : ℕ → ρ) : (c.schedule first).1.RoundRobin regs :=
  (turn_schedule hc hfresh hrunning hd h).completes regs

/-- An idle CPU with two new threads. -/
def twoThreads : Cpu ℕ where
  currentThread := some 0
  idleProcess := 0
  idleThread := 0
  runQueueLocked := false
  runQueueCount := 2
  runQueue := [1, 2]
  threads t :=
    { parent := if t = 0 then 0 else 1
      state := .running
      timeSlice := if t = 0 then 0 else 1
      timeSliceDefault := if t = 0 then 0 else 1
      registers := 0 }
  activeTicks _ := 0

theorem two_roundRobin : (twoThreads.schedule 0).2 = some (1, 0) ∧
    (twoThreads.schedule 0).1.RoundRobin id := by
  have hwell : twoThreads.WellFormed :=
    { count := rfl
      nodup := by decide
      parent := by decide
      idle_parent := rfl
      idle_state := rfl
      current := by decide }
  exact ⟨rfl, roundRobin hwell (fun _ _ _ ↦ rfl) (fun _ _ ↦ rfl) rfl 0 rfl id⟩

end Cpu

end Borrrdex
