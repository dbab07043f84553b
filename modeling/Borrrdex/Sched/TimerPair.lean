import Borrrdex.Sched.SleepQueue
import Mathlib.Tactic

/-!
# Two timers

What one event does to the others is seen on two timers, of which one has it in its queue and the
other has not: if the first is done the same as the second, the other events are dispatched at the
same interrupts (`Paired.run`).

That is so as long as the event does not come to be a head without ticks: the handler counts the
head down before it looks at it, and the tick is lost to the events behind.
-/

set_option autoImplicit false

namespace Borrrdex

open DeltaQueue

/-- The events of a queue. -/
abbrev SleepList.names (q : SleepList) : List ℕ := q.map (·.1.id)

/-- The head, if it is the event, has ticks left, or a successor without any. -/
def HeadTicks (evt : TimerEvent) (q : SleepList) : Prop :=
  ∀ ticks after, q = (evt, ticks) :: after → 0 < ticks ∨ ∃ next after', after = (next, 0) :: after'

/-- `q` is `q'` with the event in it, or it has been in both. -/
def Beside (evt : TimerEvent) (q q' : SleepList) : Prop :=
  evt.id ∉ SleepList.names q' ∧ (q = q' ∨ Extra evt q q' ∧ HeadTicks evt q)

variable {evt : TimerEvent} {q q' : SleepList}

/-! ## The queues -/

/-- One round of the handler, counting down and taking off. -/
theorem round_of_extra (h : Extra evt q q') (hhead : HeadTicks evt q) :
    ((expire (countDown 1 q)).1 = (expire (countDown 1 q')).1 ∧
      Extra evt (expire (countDown 1 q)).2 (expire (countDown 1 q')).2) ∨
    ∃ l r, (expire (countDown 1 q)).1 = l ++ evt :: r ∧ (expire (countDown 1 q')).1 = l ++ r ∧
      (expire (countDown 1 q)).2 = (expire (countDown 1 q')).2 := by
  obtain h | ⟨d, hd, rfl⟩ := h
  · cases h with
    | @here d d' x rest hd hd' =>
      by_cases hpos : 0 < d
      · have hdown : Handed evt (countDown 1 ((evt, d) :: (x, d') :: rest))
            (countDown 1 ((x, d' + d) :: rest)) := by
          rw [countDown, countDown, add_sub_assoc]
          exact .here x rest (by omega) hd'
        exact Extra.expire (.inl hdown)
      · obtain rfl : d = 0 := by omega
        obtain rfl : d' = 0 := by
          obtain ⟨next, after, hnext⟩ := (hhead 0 _ rfl).resolve_left hpos
          exact congrArg Prod.snd (List.cons.inj hnext).1
        refine .inr ⟨[], x :: (expire rest).1, ?_, ?_, ?_⟩
        all_goals simp [countDown, expire]
    | cons p h =>
      obtain ⟨y, d⟩ := p
      exact Extra.expire (.inl (.cons (y, d - 1) h))
  · cases q' with
    | nil =>
      -- a head without ticks expires, and there is nothing behind it
      have hlast : expire (countDown 1 [(evt, d)]) =
          if d - 1 ≤ 0 then ([evt], []) else ([], [(evt, d - 1)]) := rfl
      rw [List.nil_append, hlast]
      split
      · exact .inr ⟨[], [], rfl, rfl, rfl⟩
      · exact .inl ⟨rfl, .inr ⟨d - 1, by omega, rfl⟩⟩
    | cons p q' =>
      obtain ⟨y, d'⟩ := p
      exact Extra.expire (.inr ⟨d, hd, rfl⟩)

theorem headTicks_expire (evt : TimerEvent) (q : SleepList) : HeadTicks evt (expire q).2 :=
  fun ticks after heq ↦ .inl (head_expire q (evt, ticks) (by rw [heq]; rfl))

theorem Beside.round (h : Beside evt q q') :
    Beside evt (expire (countDown 1 q)).2 (expire (countDown 1 q')).2 ∧
      (expire (countDown 1 q')).1.map TimerEvent.id =
        ((expire (countDown 1 q)).1.map TimerEvent.id).filter (· ≠ evt.id) ∧
      evt.id ∉ (expire (countDown 1 q')).1.map TimerEvent.id := by
  obtain ⟨hgone, hq⟩ := h
  have happend := congrArg (List.map TimerEvent.id) (expire_append (countDown 1 q'))
  rw [map_fst_countDown, List.map_append, List.map_map, List.map_map] at happend
  have hnames : evt.id ∉ (expire (countDown 1 q')).1.map TimerEvent.id ++
      SleepList.names (expire (countDown 1 q')).2 := fun hmem ↦ by
    refine hgone ?_
    change evt.id ∈ List.map (TimerEvent.id ∘ Prod.fst) q'
    rw [← happend]
    exact hmem
  obtain ⟨hfired, hrest⟩ := not_or.mp (List.mem_append.not.mp hnames)
  have hself : ((expire (countDown 1 q')).1.map TimerEvent.id).filter (· ≠ evt.id) =
      (expire (countDown 1 q')).1.map TimerEvent.id :=
    List.filter_eq_self.mpr fun id hid ↦ by simpa using ne_of_mem_of_not_mem hid hfired
  obtain rfl | ⟨hextra, hhead⟩ := hq
  · exact ⟨⟨hrest, .inl rfl⟩, hself.symm, hfired⟩
  · obtain ⟨hfst, hsnd⟩ | ⟨l, r, hl, hr, hsnd⟩ := round_of_extra hextra hhead
    · rw [hfst]
      exact ⟨⟨hrest, .inr ⟨hsnd, headTicks_expire _ _⟩⟩, hself.symm, hfired⟩
    · refine ⟨⟨hrest, .inl hsnd⟩, ?_, hfired⟩
      rw [← hself, hl, hr]
      simp [List.filter_append]

/-- The events of the one queue wait if those of the other do. -/
theorem Beside.waiting (h : Beside evt q q') (hq : ∀ p ∈ q, p.1.dispatched = false) :
    ∀ p ∈ q', p.1.dispatched = false := by
  obtain ⟨-, rfl | ⟨hextra, -⟩⟩ := h
  · exact hq
  · intro p hp
    obtain ⟨p', hp', heq⟩ :=
      List.mem_map.mp (hextra.map_fst.symm.subset
        (List.mem_cons_of_mem _ (List.mem_map_of_mem (f := Prod.fst) hp)))
    rw [← heq]
    exact hq p' hp'

theorem waiting_round (h : ∀ p ∈ q, p.1.dispatched = false) :
    (∀ p ∈ countDown 1 q, p.1.dispatched = false) ∧
      ∀ p ∈ (expire (countDown 1 q)).2, p.1.dispatched = false := by
  have hdown : ∀ p ∈ countDown 1 q, p.1.dispatched = false := by
    intro p hp
    have hmem := List.mem_map_of_mem (f := Prod.fst) hp
    rw [map_fst_countDown] at hmem
    obtain ⟨p', hp', heq⟩ := List.mem_map.mp hmem
    rw [← heq]
    exact h p' hp'
  exact ⟨hdown, fun p hp ↦ hdown p ((expire_suffix _).subset hp)⟩

/-- However many interrupts are pending. -/
theorem Beside.sleepLoop (h : Beside evt q q') (hq : ∀ p ∈ q, p.1.dispatched = false)
    (pending : ℕ) : ∃ ids r ids' r', sleepLoop pending q = some (ids, r) ∧
      Borrrdex.sleepLoop pending q' = some (ids', r') ∧ Beside evt r r' ∧
      (∀ p ∈ r, p.1.dispatched = false) ∧ ids' = ids.filter (· ≠ evt.id) ∧ evt.id ∉ ids' := by
  induction pending generalizing q q' with
  | zero => exact ⟨[], q, [], q', rfl, rfl, h, hq, rfl, List.not_mem_nil⟩
  | succ pending ih =>
    obtain ⟨hbeside, hfilter, hgone⟩ := h.round
    obtain ⟨hdown, hrest⟩ := waiting_round hq
    obtain ⟨hdown', -⟩ := waiting_round (h.waiting hq)
    obtain ⟨ids, r, ids', r', hloop, hloop', hr, hwaiting, hids, hnot⟩ := ih hbeside hrest
    refine ⟨(expire (countDown 1 q)).1.map TimerEvent.id ++ ids, r,
      (expire (countDown 1 q')).1.map TimerEvent.id ++ ids', r', ?_, ?_, hr, hwaiting, ?_, ?_⟩
    · rw [sleepLoop_succ, dispatchLoop_eq hdown]
      simp only [Option.bind_eq_bind, Option.bind_some, hloop]
      rfl
    · rw [sleepLoop_succ, dispatchLoop_eq hdown']
      simp only [Option.bind_eq_bind, Option.bind_some, hloop']
      rfl
    · rw [List.filter_append, ← hfilter, hids]
    · exact fun hmem ↦ (List.mem_append.mp hmem).elim hgone hnot

/-- An event that is put in does not take the ticks of the head. -/
theorem HeadTicks.enqueue (h : HeadTicks evt q) {x : TimerEvent} (hx : x ≠ evt) (delay : ℤ) :
    HeadTicks evt (enqueue x delay q) := by
  cases q with
  | nil =>
    rintro ticks after ⟨⟩
    exact absurd rfl hx
  | cons p rest =>
    obtain ⟨y, d⟩ := p
    rw [DeltaQueue.enqueue]
    split
    · rintro ticks after ⟨⟩
      exact absurd rfl hx
    · next hlt =>
      rintro ticks after ⟨⟩
      refine (h d rest rfl).imp_right ?_
      rintro ⟨next, after, rfl⟩
      refine ⟨next, DeltaQueue.enqueue x (delay - d - 0) after, ?_⟩
      rw [DeltaQueue.enqueue, if_neg (by omega)]

theorem Beside.enqueue (h : Beside evt q q') {x : TimerEvent} (hx : x.id ≠ evt.id) (delay : ℤ) :
    Beside evt (enqueue x delay q) (DeltaQueue.enqueue x delay q') := by
  obtain ⟨hgone, hq⟩ := h
  constructor
  · intro hmem
    have hperm := (map_fst_enqueue x delay q').map TimerEvent.id
    rw [List.map_map, List.map_cons, List.map_map] at hperm
    obtain heq | hmem := List.mem_cons.mp (hperm.subset hmem)
    · exact hx heq.symm
    · exact hgone hmem
  · obtain rfl | ⟨hextra, hhead⟩ := hq
    · exact .inl rfl
    · have hne : x ≠ evt := fun heq ↦ hx (congrArg TimerEvent.id heq)
      exact .inr ⟨hextra.enqueue x delay, hhead.enqueue hne delay⟩

/-! ## Runs -/

namespace Timer

/-- The timers with the event and without it. -/
structure Paired (evt : TimerEvent) (t t' : Timer) : Prop where
  same : t' = { t with sleeping := t'.sleeping }
  lt : evt.id < t.next
  waiting : ∀ p ∈ t.sleeping, p.1.dispatched = false
  beside : Beside evt t.sleeping t'.sleeping

variable {t t' : Timer}

/-- One action on both. -/
theorem Paired.step (h : Paired evt t t') (action : Action) :
    ∃ t₁ ids t₁' ids', t.step action = some (t₁, ids) ∧ t'.step action = some (t₁', ids') ∧
      Paired evt t₁ t₁' ∧ evt.id ∉ ids' ∧ ids' = ids.filter (· ≠ evt.id) := by
  cases action with
  | interrupt free =>
    have hclock : t'.clock = { t.clock with sleeping := t'.sleeping } := by
      rw [h.same, clock, clock]
      dsimp only
      split <;> rfl
    have hsleeping := t.clock_sleeping
    have hnext := t.clock_next
    cases free with
    | false =>
      refine ⟨_, [], _, [], rfl, rfl, ⟨?_, ?_, ?_, ?_⟩, List.not_mem_nil, rfl⟩
      · rw [hclock]
      · exact h.lt.trans_eq hnext.symm
      · exact hsleeping ▸ h.waiting
      · rw [hclock, hsleeping]
        exact h.beside
    | true =>
      obtain ⟨ids, r, ids', r', hloop, hloop', hbeside, hwaiting, hids, hgone⟩ :=
        h.beside.sleepLoop h.waiting (t.clock.pendingTicks + 1)
      refine ⟨{ t.clock with sleeping := r, pendingTicks := 0 }, ids,
        { t.clock with sleeping := r', pendingTicks := 0 }, ids', ?_, ?_,
        ⟨rfl, h.lt.trans_eq hnext.symm, hwaiting, hbeside⟩, hgone, hids⟩
      · rw [Timer.step, timerHandler]
        dsimp only
        rw [hsleeping, hloop]
        rfl
      · rw [Timer.step, timerHandler, hclock]
        dsimp only
        rw [hloop']
        rfl
  | construct us =>
    have hne : t.next ≠ evt.id := h.lt.ne'
    have htimer : t'.timerEvent us = if t.ticks ≤ 0 then ({ t' with next := t.next + 1 }, [t.next])
        else ({ t' with
          next := t.next + 1
          sleeping := DeltaQueue.enqueue ⟨t.next, false⟩ (t.delay us) t'.sleeping }, []) := by
      rw [h.same]
      rfl
    refine ⟨(t.timerEvent us).1, (t.timerEvent us).2, (t'.timerEvent us).1, (t'.timerEvent us).2,
      rfl, rfl, ?_⟩
    rw [htimer, timerEvent]
    split
    · refine ⟨⟨?_, h.lt.trans (Nat.lt_succ_self _), h.waiting, h.beside⟩, ?_, ?_⟩
      · rw [h.same]
      · exact fun hmem ↦ hne (List.mem_singleton.mp hmem).symm
      · rw [List.filter_cons_of_pos (by simpa using hne), List.filter_nil]
    · refine ⟨⟨?_, h.lt.trans (Nat.lt_succ_self _), waiting_enqueue rfl _ h.waiting,
        h.beside.enqueue hne _⟩, List.not_mem_nil, rfl⟩
      rw [h.same]

/-- Any actions on both. -/
theorem Paired.run (h : Paired evt t t') (actions : List Action) :
    ∃ t₁ log t₂ log', t.run actions = some (t₁, log) ∧ t'.run actions = some (t₂, log') ∧
      (∀ ids ∈ log', evt.id ∉ ids) ∧ log' = log.map (List.filter (· ≠ evt.id)) := by
  induction actions generalizing t t' with
  | nil => exact ⟨t, [], t', [], rfl, rfl, (fun _ hids ↦ nomatch hids), rfl⟩
  | cons action actions ih =>
    obtain ⟨t₁, ids, t₁', ids', hstep, hstep', hpaired, hgone, hids⟩ := h.step action
    obtain ⟨t₂, log, t₂', log', hrun, hrun', hnot, hlog⟩ := ih hpaired
    refine ⟨t₂, ids :: log, t₂', ids' :: log', ?_, ?_, List.forall_mem_cons.mpr ⟨hgone, hnot⟩, ?_⟩
    · rw [Timer.run, hstep]
      simp [hrun]
    · rw [Timer.run, hstep']
      simp [hrun']
    · rw [List.map_cons, hids, hlog]

end Timer

end Borrrdex
