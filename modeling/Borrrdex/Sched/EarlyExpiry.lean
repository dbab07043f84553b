import Borrrdex.Lib.Runs
import Borrrdex.Sched.TimerPair

/-!
# Timeouts that come too early

`thread::sleep` and the timed `thread::block` clear `blocked_timeout` and construct a timer event
whose callback sets it.  They report a timeout too early if it is set before as many timer
interrupts have come as the delay says.

The constructor calls back at once at the full second, where it tests the counter of the second,
`ticks`, in place of its own `_ticks`.  And interrupts that have found `sleep_list_lock` taken
before the event was constructed are counted to it when the next one gets the lock.  `notEarly_iff`
says that there is no other way.

The runs have all that can happen to the queue, the destructors of events too.  A destructor that
leaves its event in the queue leaves a pointer there to memory that is given back, and there the run
ends.
-/

set_option autoImplicit false

namespace Borrrdex

open DeltaQueue

/-- What happens to the timer while a thread waits. -/
inductive Incident
  | interrupt (free : Bool)
  | construct (us : ℤ)
  | destroy (id : ℕ)

/-- How many timer interrupts there have been. -/
def Incident.interrupts (xs : List Incident) : ℕ :=
  xs.countP fun | .interrupt _ => true | _ => false

namespace Timer

/-- One incident, with the events whose callbacks it calls. -/
def happen (t : Timer) : Incident → Option (Timer × List ℕ)
  | .interrupt free => t.timerHandler free
  | .construct us => some (t.timerEvent us)
  | .destroy id =>
    if (cancelLoop id t.sleeping).all fun p ↦ !p.1.dispatched then some (t.destroy id, []) else none

/-- A thread that waits for the callback of its event, or for something else to happen. -/
structure TimedWait where
  timer : Timer
  event : ℕ
  blockedTimeout : Bool

/-- `thread::sleep` and the timed `thread::block`, up to where the event has been constructed. -/
def beginWait (us : ℤ) (t : Timer) : TimedWait where
  timer := (t.timerEvent us).1
  event := t.next
  blockedTimeout := decide (t.next ∈ (t.timerEvent us).2)

/-- An incident while the thread waits.  The callback of its event sets `blocked_timeout`. -/
def TimedWait.happen (w : TimedWait) (x : Incident) : Option TimedWait :=
  (w.timer.happen x).map fun r ↦
    { w with timer := r.1, blockedTimeout := w.blockedTimeout || decide (w.event ∈ r.2) }

/-- **No early expiry** of an event: its constructor does not call back, and in no run is the
timeout reported before as many interrupts have come as the delay says. -/
structure NotEarly (t : Timer) (us : ℤ) : Prop where
  not_called : (t.timerEvent us).2 = []
  in_time : ∀ xs w, xs.foldlM TimedWait.happen (t.beginWait us) = some w →
    w.blockedTimeout = true → t.delay us ≤ Incident.interrupts xs

/-- The timer as it always is: only the head can be overdue, all events wait, and their names have
been given out. -/
structure Usable (t : Timer) : Prop where
  tail : Nonneg t.sleeping.tail
  waiting : ∀ p ∈ t.sleeping, p.1.dispatched = false
  fresh : ∀ p ∈ t.sleeping, p.1.id < t.next

/-- The timer, from the start. -/
def machine : Machine Timer Incident where
  initial := Booted
  step t x := (t.happen x).map Prod.fst

variable {t t' : Timer} {q q' : SleepList} {ids : List ℕ}

/-! ## What is kept -/

theorem nonneg_tail_of_suffix {r : SleepList} (h : r <:+ q) (hq : Nonneg q.tail) :
    Nonneg r.tail := by
  obtain ⟨l, rfl⟩ := h
  cases l with
  | nil => exact hq
  | cons p l =>
    exact fun p hp ↦ hq p (List.mem_append_right l (List.mem_of_mem_tail hp))

theorem nonneg_tail_countDown (hq : Nonneg q.tail) : Nonneg (countDown (1 : ℤ) q).tail := by
  cases q <;> exact hq

theorem nonneg_tail_enqueue (hq : Nonneg q.tail) (evt : TimerEvent) (delay : ℤ) :
    Nonneg (enqueue evt delay q).tail := by
  cases q with
  | nil => exact hq
  | cons p q =>
    obtain ⟨y, d⟩ := p
    rw [enqueue]
    split
    · next hle => exact nonneg_cons.mpr ⟨sub_nonneg.mpr hle, hq⟩
    · next hlt => exact Nonneg.enqueue hq evt (sub_nonneg.mpr (not_le.mp hlt).le)

theorem mem_names_cancelLoop (id : ℕ) (q : SleepList) :
    ∀ p ∈ cancelLoop id q, p.1.id ∈ SleepList.names q := by
  fun_induction cancelLoop id q with
  | case1 => simp
  | case2 evt ticks => split <;> simp
  | case3 => exact fun p hp ↦ List.mem_map_of_mem hp
  | case4 evt ticks next ticks' q hid hevt =>
    refine List.forall_mem_cons.mpr ⟨by simp, fun p hp ↦ ?_⟩
    exact List.mem_cons_of_mem _ (List.mem_cons_of_mem _ (List.mem_map_of_mem hp))
  | case5 evt ticks next ticks' q hid ih =>
    exact List.forall_mem_cons.mpr ⟨by simp, fun p hp ↦ List.mem_cons_of_mem _ (ih p hp)⟩

theorem nonneg_cancelLoop (id : ℕ) (hq : Nonneg q) : Nonneg (cancelLoop id q) := by
  fun_induction cancelLoop id q with
  | case1 => exact hq
  | case2 evt ticks => exact nonneg_cons.mpr (nonneg_cons.mp hq)
  | case3 => exact hq
  | case4 evt ticks next ticks' q hid hevt =>
    obtain ⟨hticks, hnext⟩ := nonneg_cons.mp hq
    obtain ⟨hticks', hq⟩ := nonneg_cons.mp hnext
    refine nonneg_cons.mpr ⟨?_, hq⟩
    rw [if_pos hticks]
    exact add_nonneg hticks' hticks
  | case5 evt ticks next ticks' q hid ih =>
    obtain ⟨hticks, hnext⟩ := nonneg_cons.mp hq
    exact nonneg_cons.mpr ⟨hticks, ih hnext⟩

theorem nonneg_tail_cancelLoop (id : ℕ) (hq : Nonneg q.tail) : Nonneg (cancelLoop id q).tail := by
  fun_cases cancelLoop id q with
  | case1 => exact hq
  | case2 evt ticks => exact hq
  | case3 => exact hq
  | case4 evt ticks next ticks' q hid hevt => exact (nonneg_cons.mp hq).2
  | case5 evt ticks next ticks' q hid => exact nonneg_cancelLoop id hq

/-- The destructor of an event does not bring another one nearer. -/
theorem far_cancelLoop (id : ℕ) {k : ℕ} {n : ℤ} (hq : Nonneg q.tail)
    (h : Far (fun evt ↦ evt.id = k) n q) : Far (fun evt ↦ evt.id = k) n (cancelLoop id q) := by
  fun_induction cancelLoop id q generalizing n with
  | case1 => trivial
  | case2 evt ticks =>
    refine ⟨fun hk ↦ h.1 ?_, trivial⟩
    rw [← hk]
    split <;> rfl
  | case3 => exact h
  | case4 evt ticks next ticks' q hid hevt =>
    obtain ⟨-, hnext, hrest⟩ := h
    have hticks' : 0 ≤ ticks' := (nonneg_cons.mp hq).1
    have hsum : (if ticks ≥ 0 then ticks' + ticks else ticks') = ticks' + max 0 ticks := by
      split <;> omega
    rw [hsum]
    refine ⟨fun hk ↦ by have := hnext hk; omega, hrest.mono ?_⟩
    omega
  | case5 evt ticks next ticks' q hid ih => exact ⟨h.1, ih (nonneg_cons.mp hq).2 h.2⟩

/-! ## One incident -/

/-- The rounds of the handler. -/
theorem exists_sleepLoop (rounds : ℕ) (hq : ∀ p ∈ q, p.1.dispatched = false)
    (htail : Nonneg q.tail) : ∃ ids q', sleepLoop rounds q = some (ids, q') ∧
      q'.map Prod.fst <:+ q.map Prod.fst ∧ Nonneg q'.tail := by
  induction rounds generalizing q with
  | zero => exact ⟨[], q, by cases q <;> rfl, List.suffix_rfl, htail⟩
  | succ rounds ih =>
    obtain ⟨hdown, hrest⟩ := waiting_round hq
    have hsuffix := expire_suffix (countDown 1 q)
    obtain ⟨ids, q', hloop, hsub, htail'⟩ :=
      ih hrest (nonneg_tail_of_suffix hsuffix (nonneg_tail_countDown htail))
    refine ⟨(expire (countDown 1 q)).1.map TimerEvent.id ++ ids, q', ?_, ?_, htail'⟩
    · rw [sleepLoop_succ, dispatchLoop_eq hdown]
      simp [hloop]
    · have hmap := hsuffix.map Prod.fst
      rw [map_fst_countDown] at hmap
      exact hsub.trans hmap

/-- As long as there are fewer than an event has to go, it is not dispatched. -/
theorem far_sleepLoop {id rounds : ℕ} {n : ℤ} (hq : ∀ p ∈ q, p.1.dispatched = false)
    (h : Far (fun evt ↦ evt.id = id) n q) (hn : rounds < n)
    (hloop : sleepLoop rounds q = some (ids, q')) :
    id ∉ ids ∧ Far (fun evt ↦ evt.id = id) (n - rounds) q' := by
  induction rounds generalizing q n ids with
  | zero =>
    have hnil : sleepLoop 0 q = some ([], q) := by cases q <;> rfl
    obtain ⟨rfl, rfl⟩ := Prod.mk.inj (Option.some.inj (hnil.symm.trans hloop))
    simpa using h
  | succ rounds ih =>
    obtain ⟨hdown, hrest⟩ := waiting_round hq
    obtain ⟨hnot, hfar⟩ := (h.countDown (zero_le_one (α := ℤ))).expire (by omega)
    rw [sleepLoop_succ, dispatchLoop_eq hdown] at hloop
    simp only [Option.bind_eq_bind, Option.bind_some] at hloop
    obtain ⟨⟨ids', r⟩, hloop', heq⟩ := Option.bind_eq_some_iff.mp hloop
    cases heq
    obtain ⟨hid, hfar'⟩ := ih hrest hfar (by omega) hloop'
    refine ⟨?_, ?_⟩
    · simp only [List.mem_append, List.mem_map, not_or, not_exists, not_and]
      exact ⟨hnot, hid⟩
    · rwa [show n - ((rounds + 1 : ℕ) : ℤ) = n - 1 - rounds by push_cast; ring]

/-- What the handler does. -/
theorem Usable.timerHandler_eq (h : t.Usable) (free : Bool) :
    ∃ ids q', t.timerHandler free = some
        ({ t.clock with sleeping := q', pendingTicks := if free then 0 else t.pendingTicks +
          1 }, ids) ∧
      q'.map Prod.fst <:+ t.sleeping.map Prod.fst ∧ Nonneg q'.tail ∧
      if free then sleepLoop (t.pendingTicks + 1) t.sleeping = some (ids, q')
      else ids = [] ∧ q' = t.sleeping := by
  cases free with
  | false =>
    refine ⟨[], t.sleeping, ?_, List.suffix_rfl, h.tail, rfl, rfl⟩
    simp [timerHandler]
  | true =>
    obtain ⟨ids, q', hloop, hsub, htail⟩ := exists_sleepLoop (t.pendingTicks + 1) h.waiting h.tail
    refine ⟨ids, q', ?_, hsub, htail, hloop⟩
    simp [timerHandler, hloop]

theorem Usable.happen (h : t.Usable) {x : Incident} (hx : t.happen x = some (t', ids)) :
    t'.Usable ∧ t.next ≤ t'.next := by
  cases x with
  | interrupt free =>
    obtain ⟨ids', q', heq, hsub, htail, -⟩ := h.timerHandler_eq free
    obtain ⟨rfl, -⟩ := Prod.mk.inj (Option.some.inj (heq.symm.trans hx))
    have hmem : ∀ p ∈ q', ∃ p' ∈ t.sleeping, p'.1 = p.1 := fun p hp ↦
      List.mem_map.mp (hsub.subset (List.mem_map_of_mem hp))
    refine ⟨⟨htail, fun p hp ↦ ?_, fun p hp ↦ ?_⟩, t.clock_next.ge⟩
    · obtain ⟨p', hp', heq⟩ := hmem p hp
      exact heq ▸ h.waiting p' hp'
    · obtain ⟨p', hp', heq⟩ := hmem p hp
      exact (heq ▸ h.fresh p' hp').trans_eq t.clock_next.symm
  | construct us =>
    obtain rfl : (t.timerEvent us).1 = t' := congrArg Prod.fst (Option.some.inj hx)
    rw [timerEvent]
    split
    · exact ⟨⟨h.tail, h.waiting, fun p hp ↦ (h.fresh p hp).trans (Nat.lt_succ_self _)⟩,
        Nat.le_succ _⟩
    · exact ⟨⟨nonneg_tail_enqueue h.tail _ _, waiting_enqueue rfl _ h.waiting,
        fresh_enqueue _ h.fresh⟩, Nat.le_succ _⟩
  | destroy id =>
    rw [Timer.happen] at hx
    split at hx
    · next hall =>
      cases hx
      refine ⟨⟨nonneg_tail_cancelLoop id h.tail, by simpa [destroy] using hall, fun p hp ↦
        ?_⟩, le_rfl⟩
      obtain ⟨p', hp', heq⟩ := List.mem_map.mp (mem_names_cancelLoop id _ p hp)
      exact heq ▸ h.fresh p' hp'
    · cases hx

/-- **Every state that is reached is like that.** -/
theorem usable_of_reaches {P : Timer → Incident → Prop} (h : machine.Reaches P t) : t.Usable := by
  refine h.invariant (fun t ht ↦ ?_) fun t x t' ht _ hstep ↦ ?_
  · have hnil := ht.sleeping
    constructor <;> simp [hnil, Nonneg]
  · obtain ⟨⟨t'', ids⟩, hx, rfl⟩ := Option.map_eq_some_iff.mp hstep
    exact (ht.happen hx).1

/-! ## When no timeout is early -/

variable {w w' : TimedWait} {m : ℤ}

/-- The timeout has not been reported, and is not before `m` interrupts more. -/
structure OnTime (w : TimedWait) (m : ℤ) : Prop where
  usable : w.timer.Usable
  lt : w.event < w.timer.next
  far : 1 < m → Far (fun evt ↦ evt.id = w.event) (m + w.timer.pendingTicks) w.timer.sleeping
  not_yet : w.blockedTimeout = false

/-- An incident, unless it is the interrupt that may report it. -/
theorem OnTime.happen (h : OnTime w m) {x : Incident} (hx : w.happen x = some w')
    (hm : Incident.interrupts [x] < m) : OnTime w' (m - Incident.interrupts [x]) := by
  obtain ⟨⟨t', ids⟩, hstep, rfl⟩ := Option.map_eq_some_iff.mp hx
  obtain ⟨husable, hnext⟩ := h.usable.happen hstep
  suffices hsuff : w.event ∉ ids ∧ (1 < m - Incident.interrupts [x] →
      Far (fun evt ↦ evt.id = w.event) (m - Incident.interrupts [x] +
        t'.pendingTicks) t'.sleeping) by
    refine ⟨husable, h.lt.trans_le hnext, hsuff.2, ?_⟩
    simp [h.not_yet, hsuff.1]
  cases x with
  | interrupt free =>
    have hone : Incident.interrupts [.interrupt free] = 1 := rfl
    rw [hone] at hm ⊢
    obtain ⟨ids', q', heq, -, -, hloop⟩ := h.usable.timerHandler_eq free
    obtain ⟨rfl, rfl⟩ := Prod.mk.inj (Option.some.inj (heq.symm.trans hstep))
    have hfar := h.far hm
    cases free with
    | false =>
      obtain ⟨rfl, rfl⟩ := hloop
      refine ⟨List.not_mem_nil, fun _ ↦ hfar.mono ?_⟩
      push_cast
      omega
    | true =>
      obtain ⟨hid, hfar'⟩ := far_sleepLoop h.usable.waiting hfar (by push_cast; omega) hloop
      refine ⟨hid, fun _ ↦ hfar'.mono ?_⟩
      simp only [if_pos]
      push_cast
      omega
  | construct us =>
    have hnone : Incident.interrupts [.construct us] = 0 := rfl
    rw [hnone, Nat.cast_zero, sub_zero]
    have hne : w.timer.next ≠ w.event := h.lt.ne'
    have hevent : w.timer.timerEvent us = (t', ids) := Option.some.inj hstep
    rw [timerEvent] at hevent
    split at hevent
    · cases hevent
      exact ⟨by simpa using hne.symm, h.far⟩
    · cases hevent
      exact ⟨List.not_mem_nil, fun hlt ↦ (h.far hlt).enqueue hne⟩
  | destroy id =>
    have hnone : Incident.interrupts [.destroy id] = 0 := rfl
    rw [hnone, Nat.cast_zero, sub_zero]
    rw [Timer.happen] at hstep
    split at hstep
    · cases hstep
      exact ⟨List.not_mem_nil, fun hlt ↦ far_cancelLoop id h.usable.tail (h.far hlt)⟩
    · cases hstep

theorem interrupts_cons (x : Incident) (xs : List Incident) :
    Incident.interrupts (x :: xs) = Incident.interrupts [x] + Incident.interrupts xs := by
  simp only [Incident.interrupts, List.countP_cons, List.countP_nil]
  omega

/-- A run. -/
theorem OnTime.run (h : OnTime w m) {xs : List Incident}
    (hrun : xs.foldlM TimedWait.happen w = some w') (htimeout : w'.blockedTimeout = true) :
    m ≤ Incident.interrupts xs := by
  induction xs generalizing w m with
  | nil =>
    cases hrun
    simp [h.not_yet] at htimeout
  | cons x xs ih =>
    obtain ⟨w₁, hx, hrest⟩ := Option.bind_eq_some_iff.mp hrun
    rw [interrupts_cons]
    push_cast
    by_cases hm : Incident.interrupts [x] < m
    · have := ih (h.happen hx hm) hrest
      omega
    · omega

/-- The wait begins. -/
theorem Usable.beginWait (h : t.Usable) {us : ℤ} (hticks : 0 < t.ticks)
    (hpending : t.delay us = 1 ∨ (t.pendingTicks : ℤ) ≤ overdue t.sleeping) :
    OnTime (t.beginWait us) (t.delay us) := by
  have hstep : t.happen (.construct us) = some (t.timerEvent us) := rfl
  obtain ⟨husable, hnext⟩ := h.happen hstep
  have hevent : t.timerEvent us = ({ t with
      next := t.next + 1
      sleeping := enqueue ⟨t.next, false⟩ (t.delay us) t.sleeping }, []) :=
    if_neg (not_le.mpr hticks)
  refine ⟨husable, ?_, fun hlt ↦ ?_, ?_⟩
  · simp [Timer.beginWait, hevent]
  · have hle := hpending.resolve_left hlt.ne'
    have hfar := far_enqueue (P := fun evt : TimerEvent ↦ evt.id = t.next) h.tail
      (fun p hp ↦ (h.fresh p hp).ne) ⟨t.next, false⟩ (le_of_lt hlt |>.trans' zero_le_one)
    simp only [Timer.beginWait, hevent]
    exact hfar.mono (by omega)
  · simp [Timer.beginWait, hevent]

/-! ## When one is -/

theorem interrupts_append (xs ys : List Incident) :
    Incident.interrupts (xs ++ ys) = Incident.interrupts xs + Incident.interrupts ys :=
  List.countP_append

/-- An event is destroyed that is the head, and its ticks are handed over. -/
theorem destroy_head {y : TimerEvent} {d : ℤ} (hw : w.timer.sleeping = (y, d) :: q) (hne : q ≠ [])
    (hy : y.dispatched = false) (hq : ∀ p ∈ q, p.1.dispatched = false) :
    w.happen (.destroy y.id) =
      some { w with timer := { w.timer with sleeping := countDown (-(max 0 d)) q } } := by
  obtain ⟨⟨z, e⟩, r, rfl⟩ := List.exists_cons_of_ne_nil hne
  have hcancel : cancelLoop y.id ((y, d) :: (z, e) :: r) =
    countDown (-(max 0 d)) ((z, e) :: r) := by
    have hsum : (if d ≥ 0 then e + d else e) = e - -(max 0 d) := by split <;> omega
    rw [cancelLoop, if_pos rfl, hy, if_neg Bool.false_ne_true, hsum, countDown]
  have hall : (countDown (-(max 0 d)) ((z, e) :: r)).all (fun p ↦ !p.1.dispatched) = true := by
    simpa [countDown] using hq
  simp [TimedWait.happen, Timer.happen, destroy, hw, hcancel, hall]

theorem enqueue_ne_nil (evt : TimerEvent) (delay : ℤ) (q : SleepList) : enqueue evt delay q ≠ [] :=
  fun hnil ↦ by simpa [hnil] using (map_fst_enqueue evt delay q).length_eq

/-- All events before the one that waits are destroyed. -/
theorem exists_front {evt : TimerEvent} {c : ℤ} (hc : 0 ≤ c) (hq : Nonneg q)
    (hwaiting : ∀ p ∈ q, p.1.dispatched = false) (hevt : evt.dispatched = false)
    (hw : w.timer.sleeping = countDown (-c) (enqueue evt m q)) :
    ∃ xs behind, Incident.interrupts xs = 0 ∧ xs.foldlM TimedWait.happen w =
      some { w with timer := { w.timer with sleeping := (evt, m + c) :: behind } } := by
  induction q generalizing w m c with
  | nil =>
    refine ⟨[], [], rfl, ?_⟩
    rw [enqueue, countDown, sub_neg_eq_add] at hw
    rw [← hw]
    rfl
  | cons p q ih =>
    obtain ⟨y, d⟩ := p
    obtain ⟨hd, hq⟩ := nonneg_cons.mp hq
    obtain ⟨hy, hrest⟩ := List.forall_mem_cons.mp hwaiting
    by_cases hle : m ≤ d
    · refine ⟨[], (y, d - m) :: q, rfl, ?_⟩
      rw [enqueue, if_pos hle, countDown, sub_neg_eq_add] at hw
      rw [← hw]
      rfl
    · rw [enqueue, if_neg hle, countDown, sub_neg_eq_add] at hw
      have hdestroy := destroy_head hw (enqueue_ne_nil evt _ q) hy (waiting_enqueue hevt _ hrest)
      rw [max_eq_right (add_nonneg hd hc)] at hdestroy
      obtain ⟨xs, behind, hxs, hrun⟩ :=
        ih (w := { w with timer := { w.timer with
          sleeping := countDown (-(d + c)) (enqueue evt (m - d) q) } })
            (add_nonneg hd hc) hq hrest rfl
      refine ⟨.destroy y.id :: xs, behind, ?_, ?_⟩
      · rw [interrupts_cons, hxs]
        rfl
      · rw [List.foldlM_cons, hdestroy]
        refine hrun.trans ?_
        rw [show m - d + (d + c) = m + c by ring]

theorem exists_front_enqueue {evt : TimerEvent} (hm : 0 < m) (hq : Nonneg q.tail)
    (hwaiting : ∀ p ∈ q, p.1.dispatched = false) (hevt : evt.dispatched = false)
    (hw : w.timer.sleeping = enqueue evt m q) :
    ∃ xs behind, Incident.interrupts xs = 0 ∧ xs.foldlM TimedWait.happen w =
      some { w with timer := { w.timer with sleeping := (evt, m + overdue q) :: behind } } := by
  rcases q with - | ⟨⟨y, d⟩, q⟩
  · refine ⟨[], [], rfl, ?_⟩
    rw [overdue, add_zero, ← enqueue, ← hw]
    rfl
  obtain ⟨hy, hrest⟩ := List.forall_mem_cons.mp hwaiting
  rw [enqueue] at hw
  rw [overdue]
  by_cases hle : m ≤ d
  · refine ⟨[], (y, d - m) :: q, rfl, ?_⟩
    rw [if_pos hle] at hw
    rw [max_eq_left (by omega), add_zero, ← hw]
    rfl
  · rw [if_neg hle] at hw
    have hdestroy := destroy_head hw (enqueue_ne_nil evt _ q) hy (waiting_enqueue hevt _ hrest)
    obtain ⟨xs, behind, hxs, hrun⟩ := exists_front (w := { w with timer := { w.timer with
      sleeping := countDown (-(max 0 d)) (enqueue evt (m - d) q) } })
        (le_max_left 0 d) hq hrest hevt rfl
    refine ⟨.destroy y.id :: xs, behind, ?_, ?_⟩
    · rw [interrupts_cons, hxs]
      rfl
    · rw [List.foldlM_cons, hdestroy]
      refine hrun.trans ?_
      rw [show m - d + max 0 d = m + max 0 (-d) by omega]

/-- Interrupts that find the lock taken. -/
theorem run_taken (k : ℕ) (w : TimedWait) : ∃ w',
    (List.replicate k (Incident.interrupt false)).foldlM TimedWait.happen w = some w' ∧
      w'.event = w.event ∧ w'.timer.sleeping = w.timer.sleeping ∧
      w'.timer.pendingTicks = w.timer.pendingTicks + k := by
  induction k generalizing w with
  | zero => exact ⟨w, rfl, rfl, rfl, rfl⟩
  | succ k ih =>
    have hsleeping := w.timer.clock_sleeping
    have hx : w.happen (.interrupt false) = some { w with
        timer := { w.timer.clock with pendingTicks := w.timer.pendingTicks + 1 } } := by
      simp [TimedWait.happen, Timer.happen, timerHandler]
    obtain ⟨w', hrun, hevent, hq, hp⟩ := ih { w with
        timer := { w.timer.clock with pendingTicks := w.timer.pendingTicks + 1 } }
    refine ⟨w', ?_, hevent, hq.trans hsleeping, ?_⟩
    · rw [List.replicate_succ, List.foldlM_cons, hx]
      exact hrun
    · rw [hp]
      dsimp only
      omega

/-- The head is dispatched in as many rounds as it has ticks. -/
theorem sleepLoop_head {evt : TimerEvent} {d : ℤ} {rounds : ℕ} (hrounds : 1 ≤ rounds)
    (hd : d ≤ rounds) (hq : ∀ p ∈ (evt, d) :: q, p.1.dispatched = false) {ids : List ℕ}
    (hloop : sleepLoop rounds ((evt, d) :: q) = some (ids, q')) : evt.id ∈ ids := by
  induction rounds generalizing d ids with
  | zero => omega
  | succ rounds ih =>
    obtain ⟨hdown, -⟩ := waiting_round hq
    rw [sleepLoop_succ, dispatchLoop_eq hdown, countDown, expire] at hloop
    simp only [Option.bind_eq_bind, Option.bind_some] at hloop
    obtain ⟨hevt, hrest⟩ := List.forall_mem_cons.mp hq
    by_cases hle : d - 1 ≤ 0
    · rw [if_pos hle] at hloop
      obtain ⟨⟨ids', r⟩, -, heq⟩ := Option.bind_eq_some_iff.mp hloop
      cases heq
      simp
    · rw [if_neg hle] at hloop
      obtain ⟨⟨ids', r⟩, hloop', heq⟩ := Option.bind_eq_some_iff.mp hloop
      cases heq
      have hmem := ih (d := d - 1) (by omega) (by omega) (List.forall_mem_cons.mpr ⟨hevt, hrest⟩)
        hloop'
      simpa using hmem

theorem usable_run (h : w.timer.Usable) {xs : List Incident}
    (hrun : xs.foldlM TimedWait.happen w = some w') : w'.timer.Usable := by
  induction xs generalizing w with
  | nil =>
    cases hrun
    exact h
  | cons x xs ih =>
    obtain ⟨w₁, hx, hrest⟩ := Option.bind_eq_some_iff.mp hrun
    obtain ⟨⟨t', ids⟩, hstep, rfl⟩ := Option.map_eq_some_iff.mp hx
    exact ih (h.happen hstep).1 hrest

/-- The timeout of an event at the head is reported when it has no more ticks left than there are
interrupts, those that were pending included. -/
theorem exists_timeout {evt : TimerEvent} {d : ℤ} {behind : SleepList} (h : w.timer.Usable)
    (hw : w.timer.sleeping = (evt, d) :: behind) (hevt : evt.id = w.event) :
    ∃ xs w', xs.foldlM TimedWait.happen w = some w' ∧ w'.blockedTimeout = true ∧
      (Incident.interrupts xs : ℤ) = max 1 (d - w.timer.pendingTicks) := by
  set k := (d - 1 - w.timer.pendingTicks).toNat with hk
  obtain ⟨w₁, hrun, hevent, hsleeping, hpending⟩ := run_taken k w
  have husable := usable_run h hrun
  obtain ⟨ids, q', hhandler, -, -, hloop⟩ := husable.timerHandler_eq true
  rw [hsleeping, hpending, hw] at hloop
  have hwaiting : ∀ p ∈ (evt, d) :: behind, p.1.dispatched = false := by
    rw [← hw]
    exact h.waiting
  have hmem := sleepLoop_head (by omega) (by push_cast; omega) hwaiting hloop
  rw [hevt, ← hevent] at hmem
  obtain ⟨w₂, hlast, htimeout⟩ : ∃ w₂, w₁.happen (.interrupt true) = some w₂ ∧
      w₂.blockedTimeout = true := by
    refine ⟨_, congrArg (Option.map _) hhandler, ?_⟩
    simp [hmem]
  refine ⟨List.replicate k (.interrupt false) ++ [.interrupt true], w₂, ?_, htimeout, ?_⟩
  · rw [List.foldlM_append, hrun]
    exact congrArg (Option.bind · some) hlast
  · have hcount : Incident.interrupts (List.replicate k (.interrupt false)) = k := by
      simp [Incident.interrupts, List.countP_replicate]
    have hone : Incident.interrupts [.interrupt true] = 1 := rfl
    rw [interrupts_append, hcount, hone]
    push_cast
    omega

/-- An event of two ticks or more that is put in while more interrupts are pending than the head is
overdue. -/
theorem Usable.exists_early (h : t.Usable) {us : ℤ} (hticks : 0 < t.ticks) (hus : 1 < t.delay us)
    (hpending : overdue t.sleeping < t.pendingTicks) :
    ∃ xs w, xs.foldlM TimedWait.happen (t.beginWait us) = some w ∧ w.blockedTimeout = true ∧
      Incident.interrupts xs < t.delay us := by
  have hbegin : t.beginWait us = ⟨{ t with
      next := t.next + 1
      sleeping := enqueue ⟨t.next, false⟩ (t.delay us) t.sleeping }, t.next, false⟩ := by
    simp [Timer.beginWait, timerEvent, not_le.mpr hticks]
  have husable : (t.beginWait us).timer.Usable :=
    (h.happen (show t.happen (.construct us) = some (t.timerEvent us) from rfl)).1
  have hsleeping : (t.beginWait us).timer.sleeping =
      enqueue ⟨t.next, false⟩ (t.delay us) t.sleeping := by rw [hbegin]
  obtain ⟨xs, behind, hxs, hrun⟩ :=
    exists_front_enqueue (by omega) h.tail h.waiting rfl hsleeping
  obtain ⟨ys, w, hrun', htimeout, hys⟩ := exists_timeout (usable_run husable hrun) rfl rfl
  refine ⟨xs ++ ys, w, ?_, htimeout, ?_⟩
  · rw [List.foldlM_append, hrun]
    exact hrun'
  · rw [interrupts_append, hxs]
    push_cast
    rw [hys, hbegin]
    dsimp only
    omega

theorem usable_of_nil (h : t.sleeping = []) : t.Usable := by
  constructor <;> simp [h, Nonneg]

end Timer

end Borrrdex
