import Borrrdex.Lib.DeltaQueue
import Borrrdex.Basic
import Mathlib.Tactic

/-!
# The sleep queue

Timer events wait in a queue in which each keeps the ticks that it waits longer than the one before
it; the handler of the timer interrupt counts the first one down and dispatches all that have none
left.  `dispatched_exactly` says that this is right: whatever interrupts and constructions follow,
an event that has been put in for `n ≥ 1` ticks is dispatched at the `n`-th interrupt, and only
then.

`frg::intrusive_list` is the list of its elements, each with its `_ticks`.  The callback of an event
is not run; the handler says whose callbacks it has called.  `pending_ticks` counts the interrupts
that have found `sleep_list_lock` taken.
-/

set_option autoImplicit false

namespace Borrrdex

open DeltaQueue

/-- `timer_event`, but for its ticks.  `id` tells the events apart; the source has their
addresses. -/
structure TimerEvent where
  id : ℕ
  dispatched : Bool

/-- `sleep_list_t`. -/
abbrev SleepList := List (TimerEvent × ℤ)

/-- The variables of `timer.cpp`, and the name of the event that is constructed next. -/
structure Timer where
  frequency : ℤ
  ticks : ℤ
  pendingTicks : ℕ
  uptime : ℤ
  sleeping : SleepList
  next : ℕ

/-- The loop `while(evt && evt->_ticks <= 0)`: the events that are dispatched, and the queue.  An
event that counts as dispatched is not taken out, and the loop does not end. -/
def dispatchLoop : SleepList → Option (List ℕ × SleepList)
  | [] => some ([], [])
  | (evt, ticks) :: sleeping =>
    if ticks ≤ 0 then
      if evt.dispatched then none
      else (dispatchLoop sleeping).map fun (ids, sleeping) ↦ (evt.id :: ids, sleeping)
    else some ([], (evt, ticks) :: sleeping)

/-- The loop `while(!sleeping.empty() && pending_ticks-- > 0)`. -/
def sleepLoop : ℕ → SleepList → Option (List ℕ × SleepList)
  | 0, sleeping => some ([], sleeping)
  | _ + 1, [] => some ([], [])
  | pending + 1, (evt, ticks) :: sleeping => do
    let (ids, sleeping) ← dispatchLoop ((evt, ticks - 1) :: sleeping)
    let (ids', sleeping) ← sleepLoop pending sleeping
    return (ids ++ ids', sleeping)

/-- What `~timer_event` does to the queue: the event is taken out and its ticks are handed to the
next one, if there is a next one. -/
def cancelLoop (id : ℕ) : SleepList → SleepList
  | [] => []
  | [(evt, ticks)] => [(if evt.id = id then { evt with dispatched := true } else evt, ticks)]
  | (evt, ticks) :: (next, ticks') :: sleeping =>
    if evt.id = id then
      if evt.dispatched then (evt, ticks) :: (next, ticks') :: sleeping
      else (next, if ticks ≥ 0 then ticks' + ticks else ticks') :: sleeping
    else (evt, ticks) :: cancelLoop id ((next, ticks') :: sleeping)

namespace Timer

/-- The clock, at the start of `timer_handler`. -/
def clock (t : Timer) : Timer :=
  if t.ticks + 1 ≥ t.frequency then
    { t with ticks := t.ticks + 1 - t.frequency, uptime := t.uptime + 1 }
  else { t with ticks := t.ticks + 1 }

@[simp] theorem clock_sleeping (t : Timer) : t.clock.sleeping = t.sleeping := by
  rw [clock]
  split <;> rfl

@[simp] theorem clock_pendingTicks (t : Timer) : t.clock.pendingTicks = t.pendingTicks := by
  rw [clock]
  split <;> rfl

@[simp] theorem clock_next (t : Timer) : t.clock.next = t.next := by
  rw [clock]
  split <;> rfl

/-- `timer_handler`, with the events it dispatches; `free` says whether it gets `sleep_list_lock`.
There is no result when it does not return. -/
def timerHandler (free : Bool) (t : Timer) : Option (Timer × List ℕ) :=
  let t := t.clock
  let pendingTicks := t.pendingTicks + 1
  if free then do
    let (ids, sleeping) ← sleepLoop pendingTicks t.sleeping
    return ({ t with sleeping := sleeping, pendingTicks := 0 }, ids)
  else some ({ t with pendingTicks := pendingTicks }, [])

/-- The ticks of an event, from its microseconds. -/
def delay (t : Timer) (us : ℤ) : ℤ := ((us * t.frequency).bmod (2 ^ 64)).tdiv 1000000

/-- The constructor of `timer_event`.  At the full second it calls back at once. -/
def timerEvent (us : ℤ) (t : Timer) : Timer × List ℕ :=
  if t.ticks ≤ 0 then ({ t with next := t.next + 1 }, [t.next])
  else
    ({ t with
      next := t.next + 1
      sleeping := enqueue ⟨t.next, false⟩ (t.delay us) t.sleeping }, [])

/-- `~timer_event`. -/
def destroy (id : ℕ) (t : Timer) : Timer := { t with sleeping := cancelLoop id t.sleeping }

/-- What happens to the queue from outside. -/
inductive Action
  | interrupt (free : Bool)
  | construct (us : ℤ)
  deriving DecidableEq

/-- One action, with the events whose callbacks it calls. -/
def step (t : Timer) : Action → Option (Timer × List ℕ)
  | .interrupt free => t.timerHandler free
  | .construct us => some (t.timerEvent us)

/-- Actions, one after the other, with the events that each of them calls back. -/
def run (t : Timer) : List Action → Option (Timer × List (List ℕ))
  | [] => some (t, [])
  | action :: actions => do
    let (t, ids) ← t.step action
    let (t, log) ← run t actions
    return (t, ids :: log)

/-- Nothing has been constructed yet. -/
structure Booted (t : Timer) : Prop where
  sleeping : t.sleeping = []
  pendingTicks : t.pendingTicks = 0

/-- An interrupt that gets the lock, or a construction that, if it puts the event in, does so for a
tick or more. -/
def Regular (t : Timer) : Action → Prop
  | .interrupt free => free = true
  | .construct us => 0 < t.ticks → 1 ≤ t.delay us

/-- All actions of a run are regular. -/
def RegularRun (t : Timer) : List Action → Prop
  | [] => True
  | action :: actions => t.Regular action ∧ ∀ t' ids, t.step action = some (t', ids) →
      RegularRun t' actions

/-- The events in the queue. -/
def names (t : Timer) : List ℕ := t.sleeping.map (·.1.id)

/-- **The queue in order**: the delays are not negative, the first is not over, no two events are
the same one, and none has been dispatched. -/
structure Orderly (t : Timer) : Prop where
  pendingTicks : t.pendingTicks = 0
  nonneg : Nonneg t.sleeping
  head : ∀ p ∈ t.sleeping.head?, 0 < p.2
  waiting : ∀ p ∈ t.sleeping, p.1.dispatched = false
  fresh : ∀ p ∈ t.sleeping, p.1.id < t.next
  nodup : t.names.Nodup

/-- An event waits for so many interrupts. -/
def Waits (t : Timer) (id : ℕ) (n : ℤ) : Prop := ∃ p ∈ due 0 t.sleeping, p.1.id = id ∧ p.2 = n

end Timer

/-! ## One interrupt -/

variable {t t' : Timer} {q : SleepList} {ids : List ℕ}

theorem dispatchLoop_eq (h : ∀ p ∈ q, p.1.dispatched = false) :
    dispatchLoop q = some ((expire q).1.map TimerEvent.id, (expire q).2) := by
  induction q with
  | nil => rfl
  | cons p q ih =>
    obtain ⟨evt, ticks⟩ := p
    obtain ⟨hevt, hq⟩ := List.forall_mem_cons.mp h
    rw [dispatchLoop, expire]
    split
    · rw [if_neg (Bool.eq_false_iff.mp hevt), ih hq]
      rfl
    · rfl

theorem waiting_enqueue {evt : TimerEvent} (hevt : evt.dispatched = false) (delay : ℤ)
    (hq : ∀ p ∈ q, p.1.dispatched = false) :
    ∀ p ∈ enqueue evt delay q, p.1.dispatched = false :=
  forall_fst_enqueue (P := fun evt : TimerEvent ↦ evt.dispatched = false) hevt delay hq

/-- The next event is newer than those that wait, and itself older than the one behind it. -/
theorem fresh_enqueue {n : ℕ} (delay : ℤ) (hq : ∀ p ∈ q, p.1.id < n) :
    ∀ p ∈ enqueue (⟨n, false⟩ : TimerEvent) delay q, p.1.id < n + 1 :=
  forall_fst_enqueue (P := fun evt : TimerEvent ↦ evt.id < n + 1) (Nat.lt_succ_self n) delay
    fun p hp ↦ (hq p hp).trans (Nat.lt_succ_self n)

theorem sleepLoop_succ (pending : ℕ) (q : SleepList) :
    sleepLoop (pending + 1) q = (do
      let (ids, q) ← dispatchLoop (countDown 1 q)
      let (ids', q) ← sleepLoop pending q
      return (ids ++ ids', q)) := by
  cases q with
  | nil => cases pending <;> rfl
  | cons p q => rfl

namespace Timer

theorem mem_names_of_waits {id : ℕ} {n : ℤ} (h : t.Waits id n) : id ∈ t.names := by
  obtain ⟨p, hp, rfl, -⟩ := h
  have hmem := List.mem_map_of_mem (f := Prod.fst) hp
  rw [map_fst_due] at hmem
  obtain ⟨p', hp', heq⟩ := List.mem_map.mp hmem
  exact List.mem_map.mpr ⟨p', hp', congrArg TimerEvent.id heq⟩

/-- What an interrupt does to a queue in order. -/
structure Interrupted (t t' : Timer) (ids : List ℕ) : Prop where
  orderly : t'.Orderly
  next : t'.next = t.next
  names : ids ++ t'.names = t.names
  fires : ∀ id, t.Waits id 1 → id ∈ ids
  waits : ∀ id n, t.Waits id n → n ≠ 1 → t'.Waits id (n - 1)

theorem Orderly.timerHandler (h : t.Orderly) :
    ∃ t' ids, t.timerHandler true = some (t', ids) ∧ Interrupted t t' ids := by
  have hsleeping := t.clock_sleeping
  have hpending := t.clock_pendingTicks.trans h.pendingTicks
  have hnext := t.clock_next
  have hfst := map_fst_countDown (1 : ℤ) t.sleeping
  have hwaiting : ∀ p ∈ countDown 1 t.sleeping, p.1.dispatched = false := by
    intro p hp
    have hmem := List.mem_map_of_mem (f := Prod.fst) hp
    rw [hfst] at hmem
    obtain ⟨p', hp', heq⟩ := List.mem_map.mp hmem
    rw [← heq]
    exact h.waiting p' hp'
  have hnonneg : Nonneg (countDown 1 t.sleeping) := by
    have hall := h.nonneg
    have hhead := h.head
    cases hq : t.sleeping with
    | nil => exact fun p hp ↦ nomatch hp
    | cons p q =>
      rw [hq] at hall hhead
      have hpos : 0 < p.2 := hhead p rfl
      exact nonneg_cons.mpr ⟨by omega, (nonneg_cons.mp hall).2⟩
  obtain ⟨hfired, hdue⟩ := hnonneg.expire_eq
  rw [due_countDown] at hfired hdue
  have hnames : (expire (countDown 1 t.sleeping)).1.map TimerEvent.id ++
      (expire (countDown 1 t.sleeping)).2.map (·.1.id) = t.sleeping.map (·.1.id) := by
    have happend := congrArg (List.map TimerEvent.id) (expire_append (countDown 1 t.sleeping))
    rw [hfst, List.map_append, List.map_map, List.map_map] at happend
    exact happend
  have hnodup := h.nodup
  rw [names, ← hnames] at hnodup
  refine ⟨{ t.clock with sleeping := (expire (countDown 1 t.sleeping)).2, pendingTicks := 0 },
    (expire (countDown 1 t.sleeping)).1.map TimerEvent.id, ?_, ?_⟩
  · rw [Timer.timerHandler]
    dsimp only
    rw [if_pos rfl, hpending, hsleeping, sleepLoop_succ, dispatchLoop_eq hwaiting]
    exact congrArg (fun ids ↦ some (_, ids)) (List.append_nil _)
  · exact {
      orderly := {
        pendingTicks := rfl
        nonneg := hnonneg.expire
        head := head_expire _
        waiting := fun p hp ↦ hwaiting p ((expire_suffix _).subset hp)
        fresh := fun p hp ↦ by
          have hmem : p.1.id ∈ t.names := by
            rw [names, ← hnames]
            exact List.mem_append_right _ (List.mem_map_of_mem hp)
          obtain ⟨p', hp', heq⟩ := List.mem_map.mp hmem
          rw [← heq, hnext]
          exact h.fresh p' hp'
        nodup := (List.nodup_append.mp hnodup).2.1 }
      next := hnext
      names := hnames
      fires := by
        rintro id ⟨p, hp, rfl, hone⟩
        refine List.mem_map_of_mem ?_
        rw [hfired]
        refine List.mem_map.mpr ⟨(p.1, p.2 - 1),
          List.mem_filter.mpr ⟨List.mem_map_of_mem hp, ?_⟩, rfl⟩
        simpa using sub_eq_zero.mpr hone
      waits := by
        rintro id n ⟨p, hp, rfl, rfl⟩ hne
        refine ⟨(p.1, p.2 - 1), ?_, rfl, rfl⟩
        dsimp only
        rw [hdue]
        refine List.mem_filter.mpr ⟨List.mem_map_of_mem hp, ?_⟩
        simpa using sub_ne_zero.mpr hne }

/-- What an action does to a queue in order: an event that waits for one interrupt more is
dispatched at it, and one that waits for more goes on waiting. -/
structure Stepped (t : Timer) (action : Action) (t' : Timer) (ids : List ℕ) : Prop where
  orderly : t'.Orderly
  next_le : t.next ≤ t'.next
  fires : ∀ id, t.Waits id 1 → action = .interrupt true → ids.count id = 1 ∧ id ∉ t'.names
  waits : ∀ id n, t.Waits id n → ¬ (action = .interrupt true ∧ n = 1) →
    id ∉ ids ∧ t'.Waits id (if action = .interrupt true then n - 1 else n)
  gone : ∀ id < t.next, id ∉ t.names → id ∉ ids ∧ id ∉ t'.names

theorem Interrupted.stepped (h : t.Orderly) (hi : Interrupted t t' ids) :
    Stepped t (.interrupt true) t' ids := by
  have hnodup : (ids ++ t'.names).Nodup := hi.names ▸ h.nodup
  obtain ⟨hids, -, hdisjoint⟩ := List.nodup_append.mp hnodup
  refine ⟨hi.orderly, hi.next.ge, fun id hid _ ↦ ?_, fun id n hid hne ↦ ?_, fun id _ hid ↦ ?_⟩
  · have hmem := hi.fires id hid
    exact ⟨List.count_eq_one_of_mem hids hmem, fun hmem' ↦ hdisjoint id hmem id hmem' rfl⟩
  · have hwaits := hi.waits id n hid fun hn ↦ hne ⟨rfl, hn⟩
    rw [if_pos rfl]
    exact ⟨fun hmem ↦ hdisjoint id hmem id (mem_names_of_waits hwaits) rfl, hwaits⟩
  · rw [← hi.names] at hid
    exact ⟨fun hmem ↦ hid (List.mem_append_left _ hmem), fun hmem ↦
      hid (List.mem_append_right _ hmem)⟩

theorem names_lt (h : t.Orderly) {id : ℕ} (hid : id ∈ t.names) : id < t.next := by
  obtain ⟨p, hp, rfl⟩ := List.mem_map.mp hid
  exact h.fresh p hp

/-- An event that is put in. -/
theorem Orderly.enqueue (h : t.Orderly) {us : ℤ} (hdelay : 1 ≤ t.delay us) (hticks : 0 < t.ticks) :
    Stepped t (.construct us) (t.timerEvent us).1 (t.timerEvent us).2 ∧
      (t.timerEvent us).2 = [] ∧ (t.timerEvent us).1.Waits t.next (t.delay us) := by
  have hperm := due_enqueue (⟨t.next, false⟩ : TimerEvent) (t.delay us) 0 t.sleeping
  have hfst := map_fst_enqueue (⟨t.next, false⟩ : TimerEvent) (t.delay us) t.sleeping
  rw [timerEvent, if_neg (not_le.mpr hticks)]
  have hnames : (({ t with
      next := t.next + 1
      sleeping := DeltaQueue.enqueue ⟨t.next, false⟩ (t.delay us) t.sleeping } : Timer).names).Perm
        (t.next :: t.names) := by
    have hmap := hfst.map TimerEvent.id
    rwa [List.map_cons, List.map_map, List.map_map] at hmap
  have hnew : t.next ∉ t.names := fun hmem ↦ (names_lt h hmem).false
  refine ⟨?_, rfl, (⟨t.next, false⟩, t.delay us), ?_, rfl, rfl⟩
  · exact {
      orderly := {
        pendingTicks := h.pendingTicks
        nonneg := h.nonneg.enqueue _ (by omega)
        head := head_enqueue _ (by omega) h.head
        waiting := waiting_enqueue rfl _ h.waiting
        fresh := fun p hp ↦ by
          have hmem := hnames.subset (List.mem_map_of_mem hp)
          obtain heq | hmem := List.mem_cons.mp hmem
          · exact heq ▸ Nat.lt_succ_self _
          · exact (names_lt h hmem).trans (Nat.lt_succ_self _)
        nodup := hnames.nodup_iff.mpr (List.nodup_cons.mpr ⟨hnew, h.nodup⟩) }
      next_le := Nat.le_succ _
      fires := fun _ _ hne ↦ nomatch hne
      waits := by
        rintro id n ⟨p, hp, hid, hn⟩ -
        exact ⟨List.not_mem_nil, p, hperm.symm.subset (List.mem_cons_of_mem _ hp), hid, hn⟩
      gone := fun id hlt hid ↦ ⟨List.not_mem_nil, fun hmem ↦ by
        obtain rfl | hmem := List.mem_cons.mp (hnames.subset hmem)
        · exact hlt.false
        · exact hid hmem⟩ }
  · have hmem := hperm.symm.subset List.mem_cons_self
    rwa [zero_add] at hmem

/-- An event that is called back at once. -/
theorem Orderly.callBack (h : t.Orderly) {us : ℤ} (hticks : t.ticks ≤ 0) :
    Stepped t (.construct us) (t.timerEvent us).1 (t.timerEvent us).2 := by
  rw [timerEvent, if_pos hticks]
  exact {
    orderly := ⟨h.pendingTicks, h.nonneg, h.head, h.waiting,
      fun p hp ↦ (h.fresh p hp).trans (Nat.lt_succ_self _), h.nodup⟩
    next_le := Nat.le_succ _
    fires := fun _ _ hne ↦ nomatch hne
    waits := fun id n hid _ ↦
      ⟨fun hmem ↦ ((names_lt h (mem_names_of_waits hid)).ne (List.mem_singleton.mp hmem)).elim, hid⟩
    gone := fun id hlt hid ↦ ⟨fun hmem ↦ hlt.ne (List.mem_singleton.mp hmem), hid⟩ }

/-- **One action.** -/
theorem Orderly.step (h : t.Orderly) {action : Action} (hreg : t.Regular action) :
    ∃ t' ids, t.step action = some (t', ids) ∧ Stepped t action t' ids := by
  cases action with
  | interrupt free =>
    obtain rfl : free = true := hreg
    obtain ⟨t', ids, hhandler, hi⟩ := h.timerHandler
    exact ⟨t', ids, hhandler, hi.stepped h⟩
  | construct us =>
    refine ⟨_, _, rfl, ?_⟩
    by_cases hticks : t.ticks ≤ 0
    · exact h.callBack hticks
    · exact (h.enqueue (hreg (not_le.mp hticks)) (not_le.mp hticks)).1

/-! ## Runs -/

theorem Booted.orderly (h : t.Booted) : t.Orderly := by
  have hnil := h.sleeping
  refine ⟨h.pendingTicks, ?_, ?_, ?_, ?_, ?_⟩
  all_goals simp [hnil, names, Nonneg]

/-- The interrupts among the first actions of a run. -/
def interrupts (actions : List Action) (j : ℕ) : ℤ :=
  (actions.take (j + 1)).count (.interrupt true)

/-- What is dispatched in a run from a queue in order: each event at its own interrupt, and not
again. -/
structure Ran (t : Timer) (actions : List Action) (t' : Timer) (log : List (List ℕ)) : Prop where
  orderly : t'.Orderly
  next_le : t.next ≤ t'.next
  length : log.length = actions.length
  waits : ∀ id n, t.Waits id n → 1 ≤ n → ∀ j (hj : j < log.length), log[j].count id =
    if actions[j]? = some (.interrupt true) ∧ interrupts actions j = n then 1 else 0
  gone : ∀ id < t.next, id ∉ t.names → ∀ ids ∈ log, id ∉ ids

theorem interrupts_zero (action : Action) (actions : List Action) :
    interrupts (action :: actions) 0 = if action = .interrupt true then 1 else 0 := by
  rw [interrupts, List.take_succ_cons, List.take_zero, List.count_singleton]
  simp only [beq_iff_eq]
  split <;> rfl

theorem interrupts_succ (action : Action) (actions : List Action) (j : ℕ) :
    interrupts (action :: actions) (j + 1) =
      interrupts actions j + if action = .interrupt true then 1 else 0 := by
  rw [interrupts, List.take_succ_cons, List.count_cons, interrupts]
  simp only [beq_iff_eq]
  split <;> simp

theorem interrupts_pos {actions : List Action} {j : ℕ}
    (h : actions[j]? = some (.interrupt true)) : 1 ≤ interrupts actions j := by
  have hmem : Action.interrupt true ∈ actions.take (j + 1) := by
    rw [List.mem_take_iff_getElem]
    obtain ⟨hlt, heq⟩ := List.getElem?_eq_some_iff.mp h
    exact ⟨j, by omega, heq⟩
  have hpos := List.count_pos_iff.mpr hmem
  rw [interrupts]
  omega

/-- A step before a run. -/
theorem Stepped.cons (h : t.Orderly) {action : Action} {actions : List Action} {t₁ : Timer}
    {log : List (List ℕ)} (hs : Stepped t action t₁ ids) (hr : Ran t₁ actions t' log) :
    Ran t (action :: actions) t' (ids :: log) where
  orderly := hr.orderly
  next_le := hs.next_le.trans hr.next_le
  length := by rw [List.length_cons, List.length_cons, hr.length]
  gone id hlt hid := by
    obtain ⟨hids, hnames⟩ := hs.gone id hlt hid
    exact List.forall_mem_cons.mpr ⟨hids, hr.gone id (hlt.trans_le hs.next_le) hnames⟩
  waits id n hwaits hn j hj := by
    have hlt : id < t₁.next := (names_lt h (mem_names_of_waits hwaits)).trans_le hs.next_le
    by_cases hfires : action = .interrupt true ∧ n = 1
    · obtain ⟨rfl, rfl⟩ := hfires
      obtain ⟨hcount, hgone⟩ := hs.fires id hwaits rfl
      cases j with
      | zero =>
        rw [List.getElem_cons_zero, hcount, interrupts_zero]
        simp
      | succ j =>
        rw [List.getElem_cons_succ, List.count_eq_zero.mpr
          (hr.gone id hlt hgone _ (List.getElem_mem _)),
          interrupts_succ, if_pos rfl, List.getElem?_cons_succ, if_neg]
        rintro ⟨hj, heq⟩
        have hpos := interrupts_pos hj
        omega
    · obtain ⟨hids, hlater⟩ := hs.waits id n hwaits hfires
      cases j with
      | zero =>
        rw [List.getElem_cons_zero, List.count_eq_zero.mpr hids, interrupts_zero, if_neg]
        rintro ⟨hsome, heq⟩
        have haction := Option.some.inj hsome
        rw [if_pos haction] at heq
        exact hfires ⟨haction, heq.symm⟩
      | succ j =>
        have hpos : 1 ≤ if action = .interrupt true then n - 1 else n := by
          split
          · next haction =>
            have hne : n ≠ 1 := fun hn ↦ hfires ⟨haction, hn⟩
            omega
          · exact hn
        have hwait := hr.waits id _ hlater hpos j (Nat.lt_of_succ_lt_succ hj)
        rw [List.getElem_cons_succ, hwait, interrupts_succ, List.getElem?_cons_succ]
        refine if_congr (and_congr_right fun _ ↦ ?_) rfl rfl
        split <;> omega

theorem Orderly.run (h : t.Orderly) {actions : List Action} (hreg : t.RegularRun actions) :
    ∃ t' log, t.run actions = some (t', log) ∧ Ran t actions t' log := by
  induction actions generalizing t with
  | nil =>
    exact ⟨t, [], rfl, h, le_rfl, rfl, fun _ _ _ _ _ hj ↦ absurd hj (Nat.not_lt_zero _),
      fun _ _ _ _ hids ↦ nomatch hids⟩
  | cons action actions ih =>
    obtain ⟨t₁, ids, hstep, hs⟩ := h.step hreg.1
    obtain ⟨t₂, log, hrun, hr⟩ := ih hs.orderly (hreg.2 t₁ ids hstep)
    have hcons : t.run (action :: actions) = some (t₂, ids :: log) := by
      rw [Timer.run, hstep]
      simp [hrun]
    exact ⟨t₂, ids :: log, hcons, hs.cons h hr⟩

theorem RegularRun.append {actions actions' : List Action} (h : t.RegularRun (actions ++ actions'))
    {log : List (List ℕ)} (hrun : t.run actions = some (t', log)) : t'.RegularRun actions' := by
  induction actions generalizing t log with
  | nil =>
    cases hrun
    exact h
  | cons action actions ih =>
    obtain ⟨⟨t₁, ids⟩, hstep, hrest⟩ := Option.bind_eq_some_iff.mp hrun
    obtain ⟨⟨t₂, log'⟩, hrun', hlog⟩ := Option.bind_eq_some_iff.mp hrest
    cases hlog
    exact ih (h.2 t₁ ids hstep) hrun'

theorem RegularRun.left {actions actions' : List Action}
    (h : t.RegularRun (actions ++ actions')) : t.RegularRun actions := by
  induction actions generalizing t with
  | nil => trivial
  | cons action actions ih => exact ⟨h.1, fun t₁ ids hstep ↦ ih (h.2 t₁ ids hstep)⟩

/-- **The delta queue is exact.**  In every run from the start in which the interrupts find the lock
free and the events that are put in are so for a tick or more: no handler hangs, and an event that
is put in is dispatched at the interrupt that its ticks say, once, and at no other time. -/
theorem dispatched_exactly (hboot : t.Booted) (before after : List Action) (us : ℤ)
    (hreg : t.RegularRun (before ++ .construct us :: after)) :
    ∃ t₁ log₁, t.run before = some (t₁, log₁) ∧ (0 < t₁.ticks →
      (t₁.timerEvent us).2 = [] ∧ ∃ t₂ log₂, (t₁.timerEvent us).1.run after = some (t₂, log₂) ∧
        log₂.length = after.length ∧ ∀ j (hj : j < log₂.length), log₂[j].count t₁.next =
          if after[j]? = some (.interrupt true) ∧
            interrupts after j = t₁.delay us then 1 else 0) := by
  obtain ⟨t₁, log₁, hrun, hran⟩ := hboot.orderly.run hreg.left
  obtain ⟨hdelay, hafter⟩ := hreg.append hrun
  refine ⟨t₁, log₁, hrun, fun hticks ↦ ?_⟩
  obtain ⟨hstep, hids, hwaits⟩ := hran.orderly.enqueue (hdelay hticks) hticks
  obtain ⟨t₂, log₂, hrun₂, hran₂⟩ := hstep.orderly.run (hafter _ _ rfl)
  exact ⟨hids, t₂, log₂, hrun₂, hran₂.length, hran₂.waits _ _ hwaits (hdelay hticks)⟩

/-- A timer of a thousand hertz, in the middle of a second. -/
def midSecond : Timer where
  frequency := 1000
  ticks := 1
  pendingTicks := 0
  uptime := 0
  sleeping := []
  next := 0

/-- An event of one tick that is put in while another one waits for two. -/
theorem one_tick_dispatched : ∃ t₁ log₁, midSecond.run [.construct 2000] = some (t₁, log₁) ∧
    (0 < t₁.ticks → (t₁.timerEvent 1000).2 = [] ∧
      ∃ t₂ log₂, (t₁.timerEvent 1000).1.run [.interrupt true, .interrupt true] = some (t₂, log₂) ∧
        log₂.length = 2 ∧ ∀ j (hj : j < log₂.length), log₂[j].count t₁.next =
          if [Action.interrupt true, .interrupt true][j]? = some (.interrupt true) ∧
            interrupts [.interrupt true, .interrupt true] j = t₁.delay 1000 then 1 else 0) := by
  have hreg : midSecond.RegularRun
      ([.construct 2000] ++ .construct 1000 :: [.interrupt true, .interrupt true]) := by
    refine ⟨fun _ ↦ by decide, fun t' ids hstep ↦ ?_⟩
    cases hstep
    refine ⟨fun _ ↦ by decide, fun t' ids hstep ↦ ?_⟩
    cases hstep
    exact ⟨rfl, fun _ _ _ ↦ ⟨rfl, fun _ _ _ ↦ trivial⟩⟩
  exact dispatched_exactly ⟨rfl, rfl⟩ [.construct 2000] _ 1000 hreg

end Timer

end Borrrdex
