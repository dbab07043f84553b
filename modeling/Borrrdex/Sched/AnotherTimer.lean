import Borrrdex.Sched.TimerPair

/-!
# Another timer event

Whether an event more disturbs the others is a question about two runs, of which one constructs it
and the other does not.  The events that are constructed later have other names there (`renumber`),
and apart from that the second run is that of a timer without the event (`Timer.run_renumbered`),
which `Timer.Paired.run` compares with the first.

`undisturbed` says that it does not, if it waits for a tick or more.  An event with no delay that
comes to be the head of the queue does: the handler counts it down, and the others are a tick late.
-/

set_option autoImplicit false

namespace Borrrdex

open DeltaQueue

/-! ## Names -/

/-- The name of an event when one more, the `n`-th, has been constructed. -/
def renumber (n id : ℕ) : ℕ := if id < n then id else id + 1

/-- Events under other names. -/
def SleepList.rename (f : ℕ → ℕ) (q : SleepList) : SleepList :=
  q.map fun p ↦ ({ p.1 with id := f p.1.id }, p.2)

variable {f : ℕ → ℕ} {q : SleepList}

theorem countDown_rename (f : ℕ → ℕ) (q : SleepList) :
    countDown 1 (SleepList.rename f q) = SleepList.rename f (countDown 1 q) := by
  cases q <;> rfl

theorem enqueue_rename (f : ℕ → ℕ) (evt : TimerEvent) (delay : ℤ) (q : SleepList) :
    enqueue { evt with id := f evt.id } delay (SleepList.rename f q) =
      SleepList.rename f (enqueue evt delay q) := by
  induction q generalizing delay with
  | nil => rfl
  | cons p q ih =>
    obtain ⟨y, d⟩ := p
    rw [SleepList.rename, List.map_cons, enqueue, enqueue]
    split
    · rfl
    · exact congrArg (_ :: ·) (ih (delay - d))

theorem dispatchLoop_rename (f : ℕ → ℕ) (q : SleepList) :
    dispatchLoop (SleepList.rename f q) =
      (dispatchLoop q).map fun r ↦ (r.1.map f, SleepList.rename f r.2) := by
  induction q with
  | nil => rfl
  | cons p q ih =>
    obtain ⟨evt, ticks⟩ := p
    rw [SleepList.rename, List.map_cons, dispatchLoop, dispatchLoop]
    split
    · split
      · rfl
      · rw [← SleepList.rename, ih, Option.map_map, Option.map_map]
        rfl
    · rfl

theorem sleepLoop_rename (f : ℕ → ℕ) (pending : ℕ) (q : SleepList) :
    sleepLoop pending (SleepList.rename f q) =
      (sleepLoop pending q).map fun r ↦ (r.1.map f, SleepList.rename f r.2) := by
  induction pending generalizing q with
  | zero => rfl
  | succ pending ih =>
    rw [sleepLoop_succ, sleepLoop_succ, countDown_rename, dispatchLoop_rename]
    cases dispatchLoop (countDown 1 q) with
    | none => rfl
    | some r =>
      simp only [Option.map_some, Option.bind_eq_bind, Option.bind_some, ih]
      cases sleepLoop pending r.2 with
      | none => rfl
      | some r' => simp

namespace Timer

variable {t t' : Timer}

/-- The timer when one event more, the `n`-th, has been constructed and is gone. -/
def renumbered (n : ℕ) (t : Timer) : Timer :=
  { t with sleeping := t.sleeping.rename (renumber n), next := t.next + 1 }

theorem clock_renumbered (n : ℕ) (t : Timer) :
    (t.renumbered n).clock = t.clock.renumbered n := by
  by_cases hsecond : t.ticks + 1 ≥ t.frequency
  · rw [clock, clock, if_pos hsecond]
    exact if_pos hsecond
  · rw [clock, clock, if_neg hsecond]
    exact if_neg hsecond

theorem step_renumbered {n : ℕ} (hn : n ≤ t.next) (action : Action) :
    (t.renumbered n).step action =
      (t.step action).map fun r ↦ (r.1.renumbered n, r.2.map (renumber n)) := by
  cases action with
  | interrupt free =>
    rw [step, step, timerHandler, timerHandler, clock_renumbered]
    cases free with
    | false => rfl
    | true =>
      have hloop := sleepLoop_rename (renumber n) (t.clock.pendingTicks + 1) t.clock.sleeping
      dsimp only [renumbered]
      rw [if_pos rfl, if_pos rfl, hloop]
      cases sleepLoop (t.clock.pendingTicks + 1) t.clock.sleeping with
      | none => rfl
      | some r => rfl
  | construct us =>
    have hname : renumber n t.next = t.next + 1 := if_neg (not_lt.mpr hn)
    rw [step, step, Option.map_some]
    refine congrArg some ?_
    by_cases hticks : t.ticks ≤ 0
    · have hcall : (t.renumbered n).timerEvent us =
          ({ t.renumbered n with next := t.next + 1 + 1 }, [t.next + 1]) := if_pos hticks
      rw [hcall, timerEvent, if_pos hticks, List.map_singleton, hname]
      rfl
    · have hput : (t.renumbered n).timerEvent us =
          ({ t.renumbered n with
            next := t.next + 1 + 1
            sleeping := enqueue ⟨t.next + 1, false⟩ (t.delay us)
              (t.sleeping.rename (renumber n)) }, []) := if_neg hticks
      have henqueue := enqueue_rename (renumber n) ⟨t.next, false⟩ (t.delay us) t.sleeping
      dsimp only at henqueue
      rw [hname] at henqueue
      rw [hput, timerEvent, if_neg hticks, henqueue]
      rfl

theorem sleepLoop_fst (pending : ℕ) (h : ∀ p ∈ q, p.1.dispatched = false) :
    ∃ ids r, sleepLoop pending q = some (ids, r) ∧ r.map Prod.fst ⊆ q.map Prod.fst := by
  induction pending generalizing q with
  | zero => exact ⟨[], q, rfl, List.Subset.refl _⟩
  | succ pending ih =>
    obtain ⟨hdown, hrest⟩ := waiting_round h
    obtain ⟨ids, r, hloop, hsub⟩ := ih hrest
    refine ⟨(expire (countDown 1 q)).1.map TimerEvent.id ++ ids, r, ?_, ?_⟩
    · rw [sleepLoop_succ, dispatchLoop_eq hdown]
      simp only [Option.bind_eq_bind, Option.bind_some, hloop]
      rfl
    · refine List.Subset.trans hsub ?_
      rw [← map_fst_countDown (1 : ℤ) q]
      exact ((expire_suffix _).map Prod.fst).subset

/-- No event in the queue has been dispatched, and all have been constructed. -/
structure Known (t : Timer) : Prop where
  waiting : ∀ p ∈ t.sleeping, p.1.dispatched = false
  fresh : ∀ p ∈ t.sleeping, p.1.id < t.next

theorem Known.of_fst (h : t.Known) (hsub : t'.sleeping.map Prod.fst ⊆ t.sleeping.map Prod.fst)
    (hnext : t.next ≤ t'.next) : t'.Known := by
  have hmem : ∀ p ∈ t'.sleeping, ∃ p' ∈ t.sleeping, p'.1 = p.1 := fun p hp ↦
    List.mem_map.mp (hsub (List.mem_map_of_mem hp))
  constructor
  · intro p hp
    obtain ⟨p', hp', heq⟩ := hmem p hp
    exact heq ▸ h.waiting p' hp'
  · intro p hp
    obtain ⟨p', hp', heq⟩ := hmem p hp
    exact heq ▸ (h.fresh p' hp').trans_le hnext

/-- Any action. -/
theorem Known.step (h : t.Known) (action : Action) :
    ∃ t' ids, t.step action = some (t', ids) ∧ t'.Known ∧ t.next ≤ t'.next := by
  cases action with
  | interrupt free =>
    have hsleeping := t.clock_sleeping
    have hnext := t.clock_next
    cases free with
    | false =>
      refine ⟨{ t.clock with pendingTicks := t.clock.pendingTicks + 1 }, [], rfl, ?_, hnext.ge⟩
      exact h.of_fst (by dsimp only; rw [hsleeping]; exact List.Subset.refl _) hnext.ge
    | true =>
      obtain ⟨ids, r, hloop, hsub⟩ := sleepLoop_fst (t.clock.pendingTicks + 1) h.waiting
      refine ⟨{ t.clock with sleeping := r, pendingTicks := 0 }, ids, ?_, h.of_fst hsub hnext.ge,
        hnext.ge⟩
      rw [Timer.step, timerHandler]
      dsimp only
      rw [if_pos rfl, hsleeping, hloop]
      rfl
  | construct us =>
    refine ⟨(t.timerEvent us).1, (t.timerEvent us).2, rfl, ?_⟩
    rw [timerEvent]
    split
    · exact ⟨h.of_fst (List.Subset.refl _) (Nat.le_succ _), Nat.le_succ _⟩
    · exact ⟨⟨waiting_enqueue rfl _ h.waiting, fresh_enqueue _ h.fresh⟩, Nat.le_succ _⟩

/-- Any run, and the same one under other names. -/
theorem Known.run (h : t.Known) {n : ℕ} (hn : n ≤ t.next) (actions : List Action) :
    ∃ t' log, t.run actions = some (t', log) ∧ t'.Known ∧ log.length = actions.length ∧
      (t.renumbered n).run actions = some (t'.renumbered n, log.map (List.map (renumber n))) := by
  induction actions generalizing t with
  | nil => exact ⟨t, [], rfl, h, rfl, rfl⟩
  | cons action actions ih =>
    obtain ⟨t₁, ids, hstep, hknown, hnext⟩ := h.step action
    obtain ⟨t₂, log, hrun, hknown', hlength, hrun'⟩ := ih hknown (hn.trans hnext)
    refine ⟨t₂, ids :: log, ?_, hknown', by rw [List.length_cons, hlength, List.length_cons], ?_⟩
    · rw [Timer.run, hstep]
      simp [hrun]
    · rw [Timer.run, step_renumbered hn, hstep]
      simp [hrun']

theorem run_append {before after : List Action} {t₁ : Timer} {log₁ : List (List ℕ)}
    (h : t.run before = some (t₁, log₁)) :
    t.run (before ++ after) = (t₁.run after).map fun r ↦ (r.1, log₁ ++ r.2) := by
  induction before generalizing t log₁ with
  | nil =>
    cases h
    rw [List.nil_append]
    cases t₁.run after with
    | none => rfl
    | some r => rfl
  | cons action before ih =>
    obtain ⟨⟨t', ids⟩, hstep, hrest⟩ := Option.bind_eq_some_iff.mp h
    obtain ⟨⟨t'', log⟩, hrun, hlog⟩ := Option.bind_eq_some_iff.mp hrest
    cases hlog
    rw [List.cons_append, Timer.run, hstep, Option.bind_eq_bind, Option.bind_some]
    dsimp only
    rw [ih hrun]
    cases t₁.run after with
    | none => rfl
    | some r => rfl

/-! ## Two runs -/

/-- The event that is constructed next waits for a tick or more, or is called back at once, or finds
a head whose ticks are over. -/
def Undisturbing (t : Timer) (us : ℤ) : Prop :=
  t.ticks ≤ 0 ∨ 1 ≤ t.delay us ∨ t.delay us = 0 ∧ ∃ p ∈ t.sleeping.head?, p.2 ≤ 0

/-- **An event more disturbs no other**: two runs, of which the second constructs it and the first
does not, do not hang, and each of their actions dispatches the same other events. -/
def Undisturbed (t : Timer) (before after : List Action) (us : ℤ) : Prop :=
  ∃ t₁ log₁ t₂ log₂ t₃ ids log₃,
    t.run before = some (t₁, log₁) ∧ log₁.length = before.length ∧
    t.run (before ++ after) = some (t₂, log₁ ++ log₂) ∧
    t.run (before ++ .construct us :: after) = some (t₃, log₁ ++ ids :: log₃) ∧
    ids.filter (· ≠ t₁.next) = [] ∧
    log₂.map (List.map (renumber t₁.next)) = log₃.map (List.filter (· ≠ t₁.next))

theorem rename_of_lt {n : ℕ} (h : ∀ p ∈ q, p.1.id < n) : SleepList.rename (renumber n) q = q := by
  refine (List.map_congr_left fun p hp ↦ ?_).trans (List.map_id _)
  rw [renumber, if_pos (h p hp)]
  rfl

theorem headTicks_of_enqueue {evt : TimerEvent} {delay : ℤ} (hgone : evt.id ∉ SleepList.names q)
    (h : 1 ≤ delay ∨ delay = 0 ∧ ∃ p ∈ q.head?, p.2 ≤ 0) :
    HeadTicks evt (enqueue evt delay q) := by
  cases q with
  | nil =>
    rintro ticks after ⟨⟩
    obtain hone | ⟨-, p, hp, -⟩ := h
    · exact .inl hone
    · cases hp
  | cons p q =>
    obtain ⟨y, d⟩ := p
    rw [enqueue]
    split
    · next hle =>
      rintro ticks after ⟨⟩
      obtain hone | ⟨rfl, p, hp, hover⟩ := h
      · exact .inl hone
      · -- the head has no ticks, and the event gets none
        obtain rfl := Option.some.inj hp
        dsimp only at hover
        exact .inr ⟨y, q, by rw [show d - 0 = 0 by omega]⟩
    · intro ticks after heq
      refine absurd (List.mem_map.mpr ⟨(y, d), List.mem_cons_self, ?_⟩) hgone
      rw [(List.cons.inj heq).1]

/-- The timer with the event, and the one without it. -/
theorem Known.paired (h : t.Known) {us : ℤ} (hus : t.Undisturbing us) :
    Paired ⟨t.next, false⟩ (t.timerEvent us).1 (t.renumbered t.next) := by
  have hgone : t.next ∉ SleepList.names t.sleeping := by
    intro hmem
    obtain ⟨p, hp, heq⟩ := List.mem_map.mp hmem
    exact (h.fresh p hp).ne heq
  have hrename : (t.renumbered t.next).sleeping = t.sleeping := rename_of_lt h.fresh
  obtain ⟨t', ids, hstep, hknown, -⟩ := h.step (.construct us)
  have hnew : (t.timerEvent us).1 = t' := congrArg Prod.fst (Option.some.inj hstep)
  rw [← hnew] at hknown
  by_cases hticks : t.ticks ≤ 0
  · have hcall : t.timerEvent us = ({ t with next := t.next + 1 }, [t.next]) := if_pos hticks
    rw [hcall] at hknown ⊢
    exact ⟨rfl, Nat.lt_succ_self _, hknown.waiting, by rwa [hrename], .inl hrename.symm⟩
  · have hput : t.timerEvent us = ({ t with
        next := t.next + 1
        sleeping := enqueue ⟨t.next, false⟩ (t.delay us) t.sleeping }, []) := if_neg hticks
    have hdelay : 1 ≤ t.delay us ∨ t.delay us = 0 ∧ ∃ p ∈ t.sleeping.head?, p.2 ≤ 0 :=
      hus.resolve_left hticks
    rw [hput] at hknown ⊢
    refine ⟨rfl, Nat.lt_succ_self _, hknown.waiting, by rwa [hrename], .inr ?_⟩
    rw [hrename]
    exact ⟨.of_enqueue _ (by omega) _, headTicks_of_enqueue hgone hdelay⟩

theorem Booted.known (h : t.Booted) : t.Known := by
  constructor
  · rw [h.sleeping]
    exact fun p hp ↦ nomatch hp
  · rw [h.sleeping]
    exact fun p hp ↦ nomatch hp

/-- **Timers do not disturb each other**, as long as an event that has no delay does not come to be
the head of the queue. -/
theorem undisturbed (hboot : t.Booted) (before after : List Action) (us : ℤ)
    (hus : ∀ t₁ log₁, t.run before = some (t₁, log₁) → t₁.Undisturbing us) :
    t.Undisturbed before after us := by
  obtain ⟨t₁, log₁, hrun₁, hknown, hlength, -⟩ := hboot.known.run (Nat.zero_le _) before
  obtain ⟨t₂, log₂, hrun₂, -, -, hrun₂'⟩ := hknown.run le_rfl after
  obtain ⟨t₃, log₃, t₄, log₄, hrun₃, hrun₄, -, hlog⟩ :=
    (hknown.paired (hus t₁ log₁ hrun₁)).run after
  obtain ⟨-, hsame⟩ := Prod.mk.inj (Option.some.inj (hrun₂'.symm.trans hrun₄))
  refine ⟨t₁, log₁, t₂, log₂, t₃, (t₁.timerEvent us).2, log₃, hrun₁, hlength, ?_, ?_, ?_,
    hsame.trans hlog⟩
  · rw [run_append hrun₁, hrun₂]
    rfl
  · rw [run_append hrun₁, Timer.run, Timer.step, Option.bind_eq_bind, Option.bind_some]
    dsimp only
    rw [hrun₃]
    rfl
  · rw [timerEvent]
    split
    · simp
    · rfl

/-- Another event of one tick. -/
theorem undisturbed_midSecond :
    midSecond.Undisturbed [.construct 2000] [.interrupt true, .interrupt true] 1000 := by
  refine undisturbed ⟨rfl, rfl⟩ _ _ _ fun t₁ log₁ hrun ↦ ?_
  cases hrun
  exact .inr (.inl (by decide))

/-- An event without delay, before one of a tick: that one is dispatched an interrupt later. -/
theorem not_undisturbed_midSecond :
    ¬ midSecond.Undisturbed [] [.construct 1000, .interrupt true] 0 := by
  rintro ⟨t₁, log₁, t₂, log₂, t₃, ids, log₃, hrun₁, -, hrun₂, hrun₃, -, hlog⟩
  cases hrun₁
  cases hrun₂
  cases hrun₃
  exact absurd hlog (by decide)

end Timer

end Borrrdex
