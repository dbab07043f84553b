import Borrrdex.Sched.TimerPair
import Mathlib.Tactic

/-!
# Cancelling a timer event

`~timer_event` hands the ticks of its event to the next one and takes the event out of the queue,
but both only if there is a next one: the last event stays where it is, counts as dispatched, and
the handler does not get past it.  And the handler counts the head down before it looks at it, so
that a head without ticks delays the event behind it by one, which is lost when it is cancelled.

`cancelled_iff` says that otherwise the destructor does what it should: whatever happens later, the
other events are dispatched as if nothing had been cancelled.
-/

set_option autoImplicit false

namespace Borrrdex

open DeltaQueue

/-- What the destructor of an event owes: the event is out of the queue, its callback is not called
any more, and the other events are dispatched at the same interrupts as without it.  The clock and
the interrupts that are pending may be any. -/
structure Cancelled (q : SleepList) (id : ℕ) : Prop where
  gone : id ∉ SleepList.names (cancelLoop id q)
  others : ∀ t : Timer, t.sleeping = q → (∀ p ∈ q, p.1.id < t.next) → ∀ actions,
    ∃ t₁ log t₂ log', t.run actions = some (t₁, log) ∧
      (t.destroy id).run actions = some (t₂, log') ∧
      (∀ ids ∈ log', id ∉ ids) ∧ log' = log.map (List.filter (· ≠ id))

/-- The event has a successor, and if it is the head, it has ticks left, or neither has. -/
def HandsOver (q : SleepList) (id : ℕ) : Prop :=
  ∃ before evt ticks next after, q = before ++ (evt, ticks) :: next :: after ∧ evt.id = id ∧
    (before = [] → 0 < ticks ∨ next.2 = 0)

/-! ## The queue without the event -/

/-- The head, if it is the event, has ticks left, or its successor has none. -/
def HeadCounts (evt : TimerEvent) (q : SleepList) : Prop :=
  ∀ ticks next after, q = (evt, ticks) :: next :: after → 0 < ticks ∨ next.2 = 0

/-- `q'` is `q` without the event: it has handed its ticks over, or is gone from both. -/
def Without (evt : TimerEvent) (q q' : SleepList) : Prop :=
  evt.id ∉ SleepList.names q' ∧ (q = q' ∨ Handed evt q q' ∧ HeadCounts evt q)

variable {evt : TimerEvent} {q q' : SleepList}

theorem Without.beside (h : Without evt q q') : Beside evt q q' := by
  refine ⟨h.1, h.2.imp_right fun ⟨hhanded, hhead⟩ ↦ ⟨.inl hhanded, ?_⟩⟩
  rintro ticks after rfl
  cases hhanded with
  | here x rest hd hd' =>
    refine (hhead ticks _ rest rfl).imp_right fun hzero ↦ ⟨x, rest, ?_⟩
    rw [← show _ = (0 : ℤ) from hzero]
  | cons p hrest => exact absurd List.mem_cons_self h.1

/-! ## Runs -/

namespace Timer

/-- The timers with the event and without it. -/
structure Apart (evt : TimerEvent) (t t' : Timer) : Prop where
  same : t' = { t with sleeping := t'.sleeping }
  lt : evt.id < t.next
  waiting : ∀ p ∈ t.sleeping, p.1.dispatched = false
  without : Without evt t.sleeping t'.sleeping

variable {t t' : Timer}

/-- Any actions on both. -/
theorem Apart.run (h : Apart evt t t') (actions : List Action) :
    ∃ t₁ log t₂ log', t.run actions = some (t₁, log) ∧ t'.run actions = some (t₂, log') ∧
      (∀ ids ∈ log', evt.id ∉ ids) ∧ log' = log.map (List.filter (· ≠ evt.id)) :=
  Paired.run ⟨h.same, h.lt, h.waiting, h.without.beside⟩ actions

/-! ## Interrupts only -/

theorem regularRun_replicate (t : Timer) (n : ℕ) :
    t.RegularRun (List.replicate n (.interrupt true)) := by
  induction n generalizing t with
  | zero => trivial
  | succ n ih => exact ⟨rfl, fun t' _ _ ↦ ih t'⟩

theorem interrupts_replicate {n j : ℕ} (hj : j < n) :
    interrupts (List.replicate n (.interrupt true)) j = j + 1 := by
  rw [interrupts, List.take_replicate, List.count_replicate_self, Nat.min_eq_left (by omega)]
  push_cast
  rfl

/-- The head of a queue in order is dispatched when its ticks are over. -/
theorem Orderly.head_dispatched (h : t.Orderly) {p : TimerEvent × ℤ} {q : SleepList}
    (hq : t.sleeping = p :: q) (n : ℕ) : ∃ t' log,
    t.run (List.replicate n (.interrupt true)) = some (t', log) ∧ log.length = n ∧
      ∀ j (hj : j < log.length), log[j].count p.1.id = if (j : ℤ) + 1 = p.2 then 1 else 0 := by
  obtain ⟨t', log, hrun, hran⟩ := h.run (regularRun_replicate t n)
  have hlength : log.length = n := by rw [hran.length, List.length_replicate]
  have hpos : 0 < p.2 := h.head p (by rw [hq]; rfl)
  have hwaits : t.Waits p.1.id p.2 := by
    refine ⟨p, ?_, rfl, rfl⟩
    rw [hq, due, zero_add]
    exact List.mem_cons_self
  refine ⟨t', log, hrun, hlength, fun j hj ↦ ?_⟩
  rw [hran.waits _ _ hwaits hpos j hj, interrupts_replicate (by omega)]
  refine if_congr (and_iff_right ?_) rfl rfl
  rw [List.getElem?_replicate, if_pos (by omega)]

end Timer

/-! ## When a cancellation is right -/

theorem cancelLoop_append {before : SleepList} {id : ℕ} (h : id ∉ SleepList.names before)
    {rest : SleepList} (hrest : rest ≠ []) :
    cancelLoop id (before ++ rest) = before ++ cancelLoop id rest := by
  induction before with
  | nil => rfl
  | cons p before ih =>
    obtain ⟨evt, ticks⟩ := p
    obtain ⟨hne, hmem⟩ := not_or.mp (List.mem_cons.not.mp h)
    obtain ⟨next, after, hsplit⟩ := List.exists_cons_of_ne_nil
      (List.append_ne_nil_of_right_ne_nil before hrest)
    rw [List.cons_append, List.cons_append, ← ih hmem, hsplit]
    exact if_neg (Ne.symm hne)

theorem Handed.append (h : Handed evt q q') (before : SleepList) :
    Handed evt (before ++ q) (before ++ q') := by
  induction before with
  | nil => exact h
  | cons p before ih => exact .cons p ih

theorem cancelled_of_handsOver {id : ℕ} (hnonneg : Nonneg q)
    (hwaiting : ∀ p ∈ q, p.1.dispatched = false) (hnodup : (SleepList.names q).Nodup)
    (h : HandsOver q id) : Cancelled q id := by
  obtain ⟨before, evt, ticks, next, after, rfl, rfl, hhead⟩ := h
  obtain ⟨x, ticks'⟩ := next
  have hbefore : evt.id ∉ SleepList.names before := by
    rw [SleepList.names, List.map_append] at hnodup
    exact fun hmem ↦ (List.nodup_append.mp hnodup).2.2 _ hmem _ List.mem_cons_self rfl
  have hevt : evt.dispatched = false :=
    hwaiting (evt, ticks) (List.mem_append_right _ List.mem_cons_self)
  have hticks : 0 ≤ ticks := hnonneg (evt, ticks) (List.mem_append_right _ List.mem_cons_self)
  have hticks' : 0 ≤ ticks' := hnonneg (x, ticks')
    (List.mem_append_right _ (List.mem_cons_of_mem _ List.mem_cons_self))
  have hcancel : cancelLoop evt.id (before ++ (evt, ticks) :: (x, ticks') :: after) =
      before ++ (x, ticks' + ticks) :: after := by
    rw [cancelLoop_append hbefore (List.cons_ne_nil _ _), cancelLoop, if_pos rfl, hevt, if_neg,
      if_pos hticks]
    exact Bool.false_ne_true
  have hhanded : Handed evt (before ++ (evt, ticks) :: (x, ticks') :: after)
      (before ++ (x, ticks' + ticks) :: after) :=
        Handed.append (.here x after hticks hticks') before
  have hgone : evt.id ∉ SleepList.names (before ++ (x, ticks' + ticks) :: after) := by
    have hperm := hhanded.map_fst.map TimerEvent.id
    rw [List.map_map, List.map_cons, List.map_map] at hperm
    exact (List.nodup_cons.mp (hperm.nodup_iff.mp hnodup)).1
  have hcounts : HeadCounts evt (before ++ (evt, ticks) :: (x, ticks') :: after) := by
    intro d next rest heq
    cases before with
    | nil =>
      cases heq
      exact hhead rfl
    | cons p before =>
      refine absurd (List.mem_map.mpr ⟨p, List.mem_cons_self, ?_⟩) hbefore
      rw [(List.cons.inj heq).1]
  refine ⟨hcancel ▸ hgone, fun t hsleeping hlt actions ↦ ?_⟩
  have happart : Timer.Apart evt t (t.destroy evt.id) := by
    rw [Timer.destroy, hsleeping, hcancel]
    refine ⟨rfl, hlt (evt, ticks) (List.mem_append_right _ List.mem_cons_self), ?_, ?_⟩
    · exact hsleeping ▸ hwaiting
    · exact ⟨hgone, .inr (hsleeping ▸ ⟨hhanded, hcounts⟩)⟩
  exact happart.run actions

/-- A head without ticks takes one from its successor. -/
theorem Timer.head_delays {evt : TimerEvent} {x : TimerEvent × ℤ} {after : SleepList}
    (hevt : evt.dispatched = false) (hne : evt.id ≠ x.1.id) {t : Timer}
    (hsleeping : t.sleeping = (evt, 0) :: x :: after)
    (h : ({ t.clock with sleeping := x :: after, pendingTicks := 0 } : Timer).Orderly)
    (hpending : t.pendingTicks = 0) {n : ℕ} (hn : (n : ℤ) < x.2)
    {t₁ : Timer} {log : List (List ℕ)}
    (hrun : t.run (List.replicate (n + 1) (.interrupt true)) = some (t₁, log)) :
    ∀ ids ∈ log, x.1.id ∉ ids := by
  have hpos : 0 < x.2 := h.head x rfl
  have hstep : t.step (.interrupt true) =
      some ({ t.clock with sleeping := x :: after, pendingTicks := 0 }, [evt.id]) := by
    have hdown : dispatchLoop ((evt, 0 - 1) :: x :: after) = some ([evt.id], x :: after) := by
      rw [dispatchLoop, if_pos (by decide), hevt, if_neg Bool.false_ne_true, dispatchLoop,
        if_neg (not_le.mpr hpos)]
      rfl
    rw [Timer.step, timerHandler]
    dsimp only
    rw [clock_sleeping, clock_pendingTicks, hsleeping, hpending, sleepLoop, hdown]
    rfl
  rw [List.replicate_succ, Timer.run, hstep] at hrun
  obtain ⟨t₂, log₂, hrun₂, hlength, hcount⟩ := h.head_dispatched rfl n
  have hlog : log = [evt.id] :: log₂ := by
    simp only [Option.bind_eq_bind, Option.bind_some, hrun₂] at hrun
    cases hrun
    rfl
  rw [hlog]
  refine List.forall_mem_cons.mpr ⟨fun hmem ↦ hne (List.mem_singleton.mp hmem).symm, ?_⟩
  intro ids hids
  obtain ⟨j, hj, rfl⟩ := List.getElem_of_mem hids
  rw [← List.count_eq_zero, hcount j hj, if_neg]
  omega

/-- The successor of a head without ticks is dispatched one interrupt too early if the head is
cancelled. -/
theorem not_cancelled_of_head {evt x : TimerEvent} {n : ℕ} {after : SleepList}
    (hnonneg : Nonneg ((evt, 0) :: (x, (n + 1 : ℤ)) :: after))
    (hwaiting : ∀ p ∈ (evt, 0) :: (x, (n + 1 : ℤ)) :: after, p.1.dispatched = false)
    (hnodup : (SleepList.names ((evt, 0) :: (x, (n + 1 : ℤ)) :: after)).Nodup) :
    ¬ Cancelled ((evt, 0) :: (x, (n + 1 : ℤ)) :: after) evt.id := by
  intro h
  obtain ⟨hevt, hwaiting'⟩ := List.forall_mem_cons.mp hwaiting
  obtain ⟨hmem, hnodup'⟩ := List.nodup_cons.mp hnodup
  have hne : evt.id ≠ x.id := fun heq ↦ hmem (List.mem_cons.mpr (.inl heq))
  let q : SleepList := (evt, 0) :: (x, n + 1) :: after
  have hlt : ∀ p ∈ q, p.1.id < q.names.sum + 1 := fun p hp ↦
    Nat.lt_succ_of_le (List.le_sum_of_mem (List.mem_map_of_mem (f := fun p ↦ p.1.id) hp))
  have horderly : ∀ t : Timer, t.next = q.names.sum + 1 →
      ({ t with sleeping := (x, n + 1) :: after, pendingTicks := 0 } : Timer).Orderly :=
    fun t hnext ↦ {
      pendingTicks := rfl
      nonneg := (nonneg_cons.mp hnonneg).2
      head := by
        rintro p ⟨⟩
        exact Int.natCast_succ_pos n
      waiting := hwaiting'
      fresh := fun p hp ↦ hnext ▸ hlt p (List.mem_cons_of_mem _ hp)
      nodup := hnodup' }
  let t : Timer := ⟨1, 0, 0, 0, q, q.names.sum + 1⟩
  -- a timer with this queue, interrupted until the successor is due without the event
  obtain ⟨t₁, log, t₂, log', hrun, hrun', -, hlog⟩ :=
    h.others t rfl hlt (List.replicate (n + 1) (.interrupt true))
  have hlate := Timer.head_delays hevt hne rfl (horderly t.clock rfl) rfl (lt_add_one (n : ℤ)) hrun
  have hdestroy : t.destroy evt.id =
      { t with sleeping := (x, n + 1) :: after, pendingTicks := 0 } := by
    rw [Timer.destroy, cancelLoop, if_pos rfl, hevt, if_neg Bool.false_ne_true, if_pos le_rfl,
      add_zero]
  rw [hdestroy] at hrun'
  obtain ⟨t₃, log₃, hrun₃, hlength, hcount⟩ := (horderly t rfl).head_dispatched rfl (n + 1)
  obtain ⟨-, rfl⟩ := Prod.mk.inj (Option.some.inj (hrun'.symm.trans hrun₃))
  have hfires := hcount n (by omega)
  rw [if_pos rfl] at hfires
  have hx : x.id ∈ log'[n] := List.count_pos_iff.mp (by rw [hfires]; exact one_pos)
  have hmem' : log'[n] ∈ log.map (List.filter (· ≠ evt.id)) := by
    rw [← hlog]
    exact List.getElem_mem _
  obtain ⟨ids, hids, heq⟩ := List.mem_map.mp hmem'
  rw [← heq] at hx
  exact hlate ids hids (List.mem_of_mem_filter hx)

/-- **A cancellation is right exactly if** the event has a successor, and if it is the head, has
ticks left or a successor without any. -/
theorem cancelled_iff {id : ℕ} (hnonneg : Nonneg q) (hwaiting : ∀ p ∈ q, p.1.dispatched = false)
    (hnodup : (SleepList.names q).Nodup) (hid : id ∈ SleepList.names q) :
    Cancelled q id ↔ HandsOver q id := by
  refine ⟨fun h ↦ ?_, cancelled_of_handsOver hnonneg hwaiting hnodup⟩
  obtain ⟨⟨evt, ticks⟩, hmem, rfl⟩ := List.mem_map.mp hid
  obtain ⟨before, rest, rfl⟩ := List.append_of_mem hmem
  cases rest with
  | nil =>
    -- the last event stays in the queue
    have hbefore : evt.id ∉ SleepList.names before := by
      rw [SleepList.names, List.map_append] at hnodup
      exact fun hmem ↦ (List.nodup_append.mp hnodup).2.2 _ hmem _ List.mem_cons_self rfl
    refine absurd ?_ h.gone
    rw [cancelLoop_append hbefore (List.cons_ne_nil _ _), cancelLoop, if_pos rfl]
    simp [SleepList.names]
  | cons next after =>
    refine ⟨before, evt, ticks, next, after, rfl, rfl, ?_⟩
    rintro rfl
    by_contra hhead
    obtain ⟨hzero, hnext⟩ := not_or.mp hhead
    have hticks : 0 ≤ ticks := hnonneg (evt, ticks) hmem
    have hticks' : 0 ≤ next.2 := hnonneg next (List.mem_cons_of_mem _ List.mem_cons_self)
    obtain rfl : ticks = 0 := by omega
    obtain ⟨x, ticks'⟩ := next
    dsimp only at hnext hticks'
    obtain ⟨n, rfl⟩ : ∃ n : ℕ, ticks' = n + 1 := ⟨(ticks' - 1).toNat, by omega⟩
    exact not_cancelled_of_head hnonneg hwaiting hnodup h

/-- Three events, of which the second one is cancelled. -/
theorem second_cancelled :
    Cancelled [(⟨0, false⟩, 1), (⟨1, false⟩, 2), (⟨2, false⟩, 0)] 1 ↔
      HandsOver [(⟨0, false⟩, 1), (⟨1, false⟩, 2), (⟨2, false⟩, 0)] 1 :=
  cancelled_iff (by unfold Nonneg; decide) (by decide) (by decide) (by decide)

/-- The only event of a queue is not taken out, and the handler that comes to it does not return. -/
theorem last_stays : ¬ Cancelled [(⟨0, false⟩, 1)] 0 ∧
    (Timer.destroy 0 { Timer.midSecond with sleeping := [(⟨0, false⟩, 1)], next := 1 }).timerHandler
      true = none :=
  ⟨fun h ↦ h.gone (by decide), rfl⟩

end Borrrdex
