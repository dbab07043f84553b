import Borrrdex.Lib.Runs
import Borrrdex.Sched.Block
import Mathlib.Tactic

/-!
# Semaphores

`semaphore::wait` takes one from the count before it knows whether there is one to take; if not, it
blocks with a timeout, and all that time it holds the lock that `signal` needs.  So a thread that
waits cannot be signalled (`signallable_iff`); it sleeps until its timer wakes it, and `wait`
returns `false` without giving back what it has taken (`conserved`).

Any number of threads use one semaphore, and `step` is one step of one of them or of its timer.
`thread::block` is that of `Sched.Block`, in fewer steps: its blocker is new, and the lock of the
blocker is not held from one of these steps to the next.  `_lock` is free at the start; the
constructor leaves it as the memory was.  `taken`, `granted`, `refused` and `signals` count what has
happened; the source has nothing like them.
-/

set_option autoImplicit false

universe u

namespace Borrrdex

namespace Semaphore

/-- A `semaphore_blocker`, and the thread that has made it.  `parent` says whether it is one of the
semaphore's, and `hasThread` whether `_thread` is set. -/
structure SemaphoreBlocker (T : Type u) where
  owner : T
  parent : Bool
  hasThread : Bool
  shouldBlock : Bool
  interrupted : Bool

/-- Where a thread is in `wait` or `signal`.  Between `push` and `finish` it has its blocker. -/
inductive Point
  | outside
  /-- `lock l(_lock)`, in `wait`. -/
  | waitLock
  /-- `__sync_fetch_and_sub(&_val, 1)`. -/
  | decrement
  /-- `new semaphore_blocker(this)` and `_blocked.push_back(blocker)`. -/
  | push
  /-- In `block`, up to the timer event. -/
  | prepare (b : ℕ)
  /-- `state = thread_state::blocked`. -/
  | mark (b : ℕ)
  /-- `!blocked_timeout`. -/
  | testTimeout (b : ℕ)
  /-- `scheduler::yield()`. -/
  | asleep (b : ℕ)
  /-- `state = thread_state::running` and `blocker->interrupt()`. -/
  | interrupt (b : ℕ)
  /-- `blocker = nullptr`, the result, and the destructor of the timer event. -/
  | finish (b : ℕ)
  /-- The lock is released, and `wait` returns. -/
  | leave (result : Bool)
  /-- `lock l(_lock)`, in `signal`. -/
  | signalLock
  /-- `__sync_fetch_and_add(&_val, 1)`. -/
  | increment
  /-- `if(!_blocked.empty()) _blocked.front()->unblock()`. -/
  | wake
  /-- The lock is released, and `signal` returns. -/
  | signalUnlock
deriving DecidableEq

end Semaphore

open Semaphore in
/-- A `semaphore`, the blockers that there have been, and the threads. -/
structure Semaphore (T : Type u) where
  val : U32
  lock : Bool
  blocked : List ℕ
  blocker : ℕ → SemaphoreBlocker T
  next : ℕ
  thread : T → ThreadState
  blockedTimeout : T → Bool
  pending : T → Bool
  point : T → Point
  taken : ℕ
  granted : ℕ
  refused : ℕ
  signals : ℕ

namespace Semaphore

variable {T : Type u} [DecidableEq T]

/-- A new semaphore of `n`, with all threads outside. -/
structure Initial (n : ℕ) (s : Semaphore T) : Prop where
  val : s.val = BitVec.ofNat 32 n
  lock : s.lock = false
  blocked : s.blocked = []
  point : ∀ t, s.point t = .outside
  taken : s.taken = 0
  granted : s.granted = 0
  refused : s.refused = 0
  signals : s.signals = 0

/-- A thread gets on. -/
def goto (s : Semaphore T) (t : T) (p : Point) : Semaphore T :=
  { s with point := Function.update s.point t p }

theorem goto_self (s : Semaphore T) (t : T) (p : Point) : (s.goto t p).point t = p :=
  Function.update_self ..

theorem goto_of_ne (s : Semaphore T) {t u : T} (h : u ≠ t) (p : Point) :
    (s.goto t p).point u = s.point u :=
  Function.update_of_ne h ..

/-- `thread::unblock`. -/
def unblockThread (s : Semaphore T) (t : T) : Semaphore T :=
  { s with thread := Function.update s.thread t (Block.unblocked (s.thread t)) }

/-- The callback of the timer event of `block`. -/
def timeOut (s : Semaphore T) (t : T) : Semaphore T :=
  { s.unblockThread t with
    blockedTimeout := Function.update s.blockedTimeout t true
    pending := Function.update s.pending t false }

/-- `semaphore_blocker::interrupt`. -/
def interruptBlocker (s : Semaphore T) (b : ℕ) : Semaphore T :=
  { s with
    blocked := if (s.blocker b).parent then s.blocked.erase b else s.blocked
    blocker := Function.update s.blocker b { s.blocker b with
      interrupted := true, shouldBlock := false, parent := false } }

/-- `semaphore_blocker::unblock`. -/
def unblockBlocker (s : Semaphore T) (b : ℕ) : Semaphore T :=
  let s' : Semaphore T := { s with
    blocked := if (s.blocker b).parent then s.blocked.erase b else s.blocked
    blocker := Function.update s.blocker b
      { s.blocker b with shouldBlock := false, parent := false } }
  if (s.blocker b).hasThread then s'.unblockThread (s.blocker b).owner else s'

/-- A thread gets on with `wait` or `signal`.  `atOnce` says that the timer event calls back from
its constructor. -/
def threadStep (s : Semaphore T) (t : T) (atOnce : Bool) : Option (Semaphore T) :=
  match s.point t with
  | .outside => none
  | .waitLock => if s.lock then none else some { s.goto t .decrement with lock := true }
  | .decrement =>
    some { s.goto t (if s.val.toInt ≤ 0 then .push else .leave true) with
      val := s.val - 1, taken := s.taken + 1 }
  | .push =>
    some { s.goto t (.prepare s.next) with
      blocked := s.blocked ++ [s.next]
      blocker := Function.update s.blocker s.next ⟨t, true, false, true, false⟩
      next := s.next + 1 }
  | .prepare b =>
    if (s.blocker b).shouldBlock then
      let s' : Semaphore T := { s.goto t (.mark b) with
        blocker := Function.update s.blocker b { s.blocker b with hasThread := true }
        blockedTimeout := Function.update s.blockedTimeout t false
        pending := Function.update s.pending t true }
      some (if atOnce then s'.timeOut t else s')
    else some (s.goto t (.leave true))
  | .mark b =>
    some { s.goto t (.testTimeout b) with thread := Function.update s.thread t .blocked }
  | .testTimeout b => some (s.goto t (if s.blockedTimeout t then .interrupt b else .asleep b))
  | .asleep b => if s.thread t = .blocked then none else some (s.goto t (.finish b))
  | .interrupt b =>
    some { (s.goto t (.finish b)).interruptBlocker b with
      thread := Function.update s.thread t .running }
  | .finish b =>
    some { s.goto t (.leave (!s.blockedTimeout t && !(s.blocker b).interrupted)) with
      pending := Function.update s.pending t false }
  | .leave result =>
    some { s.goto t .outside with
      lock := false
      granted := s.granted + if result then 1 else 0
      refused := s.refused + if result then 0 else 1 }
  | .signalLock => if s.lock then none else some { s.goto t .increment with lock := true }
  | .increment => some { s.goto t .wake with val := s.val + 1, signals := s.signals + 1 }
  | .wake =>
    match s.blocked with
    | [] => some (s.goto t .signalUnlock)
    | b :: _ => some ((s.goto t .signalUnlock).unblockBlocker b)
  | .signalUnlock => some { s.goto t .outside with lock := false }

/-- The blocker that a thread has in `thread::blocker`. -/
def Point.waitsOn : Point → Option ℕ
  | .mark b | .testTimeout b | .asleep b | .interrupt b | .finish b => some b
  | _ => none

/-- What can happen next. -/
inductive Move (T : Type u)
  /-- A thread calls `wait`. -/
  | wait (t : T)
  /-- A thread calls `signal`. -/
  | signal (t : T)
  /-- It gets on. -/
  | thread (t : T) (atOnce : Bool)
  /-- Its timer event is dispatched. -/
  | timer (t : T)
  /-- Somebody interrupts the blocker that it waits on. -/
  | interrupt (t : T)

/-- One step. -/
def step (s : Semaphore T) : Move T → Option (Semaphore T)
  | .wait t => if s.point t = .outside then some (s.goto t .waitLock) else none
  | .signal t => if s.point t = .outside then some (s.goto t .signalLock) else none
  | .thread t atOnce => s.threadStep t atOnce
  | .timer t => if s.pending t then some (s.timeOut t) else none
  | .interrupt t => (s.point t).waitsOn.map s.interruptBlocker

/-- The semaphore, from a count of `n`. -/
def system (T : Type u) [DecidableEq T] (n : ℕ) : Machine (Semaphore T) (Move T) :=
  ⟨Initial n, step⟩

/-- The call of `wait` finds nothing to take. -/
def Starves (s : Semaphore T) : Move T → Prop
  | .thread t _ => s.point t = .decrement ∧ s.val.toInt ≤ 0
  | _ => False

/-- The call of `signal` finds the count at its limit. -/
def Overflows (s : Semaphore T) : Move T → Prop
  | .thread t _ => s.point t = .increment ∧ s.val.toInt = 2 ^ 31 - 1
  | _ => False

/-- **No thread sleeps in `wait` while the lock is held** that `signal` needs. -/
def Signallable (s : Semaphore T) : Prop :=
  s.lock = true → ∀ t b, s.point t = .asleep b → s.thread t ≠ .blocked

/-- **Permits are conserved**: no more waits have been granted than there have been permits, those
that have been refused do not count, whoever is queued is still in `wait`, and a signal raises the
count or wakes a thread that is asleep in `wait`. -/
structure Conserved (n : ℕ) (s : Semaphore T) : Prop where
  granted_le : s.granted ≤ n + s.signals
  count : s.val.toInt = n + s.signals + s.refused - s.taken
  queued : ∀ b ∈ s.blocked, ∃ t, s.point t = .prepare b ∨ (s.point t).waitsOn = some b
  signal : ∀ t, s.point t = .wake → s.blocked = [] ∧ 0 < s.val.toInt ∨
    ∃ b rest u, s.blocked = b :: rest ∧ s.point u = .asleep b ∧ s.thread u = .blocked

/-! ## The lock -/

/-- The thread has the lock of the semaphore. -/
def Point.inside : Point → Bool
  | .outside | .waitLock | .signalLock => false
  | _ => true

/-- The threads that are inside are one, and the lock is held for it. -/
structure Exclusive (s : Semaphore T) : Prop where
  lock : ∀ t, (s.point t).inside = true → s.lock = true
  one : ∀ t u, (s.point t).inside = true → (s.point u).inside = true → t = u

variable {s s' : Semaphore T} {t : T} {move : Move T} {n : ℕ}

theorem unblockBlocker_point (b : ℕ) : (s.unblockBlocker b).point = s.point := by
  unfold unblockBlocker
  dsimp only
  split <;> rfl

theorem unblockBlocker_lock (b : ℕ) : (s.unblockBlocker b).lock = s.lock := by
  unfold unblockBlocker
  dsimp only
  split <;> rfl

/-- Where a step takes a thread, and what becomes of the lock. -/
structure Moves (s s' : Semaphore T) (t : T) (p : Point) : Prop where
  point : s'.point = Function.update s.point t p
  lock : p.inside = (s.point t).inside ∧ s'.lock = s.lock ∨
    s.lock = false ∧ s'.lock = true ∨
    (s.point t).inside = true ∧ p.inside = false ∧ s'.lock = false

theorem threadStep_moves {atOnce : Bool} (hs : s.threadStep t atOnce = some s') :
    ∃ p, Moves s s' t p := by
  unfold threadStep at hs
  cases hp : s.point t with
  | waitLock | signalLock =>
    rw [hp] at hs
    obtain ⟨hfree, ⟨⟩⟩ := Option.ite_none_left_eq_some.mp hs
    exact ⟨_, rfl, .inr (.inl ⟨by simpa using hfree, rfl⟩)⟩
  | outside => simp [hp] at hs
  | asleep b =>
    rw [hp] at hs
    obtain ⟨-, ⟨⟩⟩ := Option.ite_none_left_eq_some.mp hs
    exact ⟨_, rfl, .inl ⟨by rw [hp]; rfl, rfl⟩⟩
  | prepare b =>
    rw [hp] at hs
    dsimp only at hs
    split at hs
    · cases hs
      cases atOnce <;> exact ⟨_, rfl, .inl ⟨by rw [hp]; rfl, rfl⟩⟩
    · cases hs
      exact ⟨_, rfl, .inl ⟨by rw [hp]; rfl, rfl⟩⟩
  | wake =>
    rw [hp] at hs
    dsimp only at hs
    split at hs <;> cases hs
    · exact ⟨_, rfl, .inl ⟨by rw [hp]; rfl, rfl⟩⟩
    · exact ⟨.signalUnlock, unblockBlocker_point _,
        .inl ⟨by rw [hp]; rfl, unblockBlocker_lock _⟩⟩
  | leave result =>
    rw [hp] at hs
    cases hs
    exact ⟨_, rfl, .inr (.inr ⟨by rw [hp]; rfl, rfl, rfl⟩)⟩
  | signalUnlock =>
    rw [hp] at hs
    cases hs
    exact ⟨_, rfl, .inr (.inr ⟨by rw [hp]; rfl, rfl, rfl⟩)⟩
  | decrement =>
    rw [hp] at hs
    cases hs
    refine ⟨_, rfl, .inl ⟨?_, rfl⟩⟩
    rw [hp]
    split <;> rfl
  | testTimeout =>
    rw [hp] at hs
    cases hs
    refine ⟨_, rfl, .inl ⟨?_, rfl⟩⟩
    rw [hp]
    split <;> rfl
  | _ =>
    rw [hp] at hs
    cases hs
    exact ⟨_, rfl, .inl ⟨by rw [hp]; rfl, rfl⟩⟩

/-- What a step does to the points and the lock. -/
theorem step_moves (hs : step s move = some s') :
    (s'.point = s.point ∧ s'.lock = s.lock) ∨ ∃ t p, Moves s s' t p := by
  cases move with
  | wait t =>
    obtain ⟨hout, ⟨⟩⟩ := Option.ite_none_right_eq_some.mp hs
    exact .inr ⟨t, _, rfl, .inl ⟨by rw [hout]; rfl, rfl⟩⟩
  | signal t =>
    obtain ⟨hout, ⟨⟩⟩ := Option.ite_none_right_eq_some.mp hs
    exact .inr ⟨t, _, rfl, .inl ⟨by rw [hout]; rfl, rfl⟩⟩
  | thread t atOnce => exact .inr ⟨t, threadStep_moves hs⟩
  | timer t =>
    obtain ⟨-, ⟨⟩⟩ := Option.ite_none_right_eq_some.mp hs
    exact .inl ⟨rfl, rfl⟩
  | interrupt t =>
    obtain ⟨b, -, rfl⟩ := Option.map_eq_some_iff.mp hs
    exact .inl ⟨rfl, rfl⟩

theorem Exclusive.moves (h : Exclusive s) {p : Point} (hm : Moves s s' t p) : Exclusive s' := by
  obtain ⟨hpoint, hlock⟩ := hm
  have hother : ∀ u, (s'.point u).inside = true → u ≠ t → (s.point u).inside = true := by
    intro u hu hne
    rwa [hpoint, Function.update_of_ne hne] at hu
  have hself : (s'.point t) = p := by rw [hpoint, Function.update_self]
  obtain ⟨hsame, hlock⟩ | ⟨hfree, hlock⟩ | ⟨hin, hout, -⟩ := hlock
  · -- nobody comes in or goes out
    have hinside : ∀ u, (s'.point u).inside = true → (s.point u).inside = true := by
      intro u hu
      obtain rfl | hne := eq_or_ne u t
      · rwa [← hsame, ← hself]
      · exact hother u hu hne
    exact ⟨fun u hu ↦ hlock.trans (h.lock u (hinside u hu)),
      fun u v hu hv ↦ h.one u v (hinside u hu) (hinside v hv)⟩
  · -- nobody was inside
    have honly : ∀ u, (s'.point u).inside = true → u = t := by
      intro u hu
      by_contra hne
      exact Bool.false_ne_true (hfree.symm.trans (h.lock u (hother u hu hne)))
    exact ⟨fun _ _ ↦ hlock, fun u v hu hv ↦ (honly u hu).trans (honly v hv).symm⟩
  · -- the one that was inside goes out
    have hnone : ∀ u, (s'.point u).inside ≠ true := by
      intro u hu
      obtain rfl | hne := eq_or_ne u t
      · rw [hself, hout] at hu
        cases hu
      · exact hne (h.one u t (hother u hu hne) hin)
    exact ⟨fun u hu ↦ absurd hu (hnone u), fun u _ hu _ ↦ absurd hu (hnone u)⟩

omit [DecidableEq T] in
theorem Initial.exclusive (h : Initial n s) : Exclusive s := by
  have hout : ∀ t, (s.point t).inside ≠ true := fun t ht ↦ by
    rw [h.point t] at ht
    cases ht
  exact ⟨fun t ht ↦ absurd ht (hout t), fun t _ ht _ ↦ absurd ht (hout t)⟩

theorem exclusive_of_reaches {P : Semaphore T → Move T → Prop} (h : (system T n).Reaches P s) :
    Exclusive s := by
  refine h.invariant (fun _ ↦ Initial.exclusive) fun s move s' hinv _ hs ↦ ?_
  obtain ⟨hpoint, hlock⟩ | ⟨t, p, hm⟩ := step_moves hs
  · exact ⟨fun t ht ↦ hlock.trans (hinv.lock t (hpoint ▸ ht)),
      fun t u ht hu ↦ hinv.one t u (hpoint ▸ ht) (hpoint ▸ hu)⟩
  · exact hinv.moves hm

/-! ## Waits that do not starve -/

/-- Where a thread is that has not had to wait. -/
def Point.quick : Point → Bool
  | .outside | .waitLock | .decrement | .leave true
  | .signalLock | .increment | .wake | .signalUnlock => true
  | _ => false

theorem threadStep_quick {atOnce : Bool} (h : (s.point t).quick = true)
    (hstarves : ¬ Starves s (.thread t atOnce)) (hs : s.threadStep t atOnce = some s') :
    ∃ p, s'.point = Function.update s.point t p ∧ p.quick = true := by
  unfold threadStep at hs
  cases hp : s.point t with
  | waitLock | signalLock =>
    rw [hp] at hs
    obtain ⟨-, ⟨⟩⟩ := Option.ite_none_left_eq_some.mp hs
    exact ⟨_, rfl, rfl⟩
  | outside => simp [hp] at hs
  | decrement =>
    rw [hp] at hs
    cases hs
    rw [if_neg fun hle ↦ hstarves ⟨hp, hle⟩]
    exact ⟨_, rfl, rfl⟩
  | wake =>
    rw [hp] at hs
    dsimp only at hs
    split at hs <;> cases hs
    · exact ⟨_, rfl, rfl⟩
    · exact ⟨.signalUnlock, unblockBlocker_point _, rfl⟩
  | increment | signalUnlock | leave =>
    rw [hp] at hs
    cases hs
    exact ⟨_, rfl, rfl⟩
  | push | prepare | mark | testTimeout | asleep | interrupt | finish =>
    rw [hp] at h
    cases h

theorem step_quick (h : ∀ t, (s.point t).quick = true) (hstarves : ¬ Starves s move)
    (hs : step s move = some s') : ∀ t, (s'.point t).quick = true := by
  have hupdate : ∀ t p, s'.point = Function.update s.point t p → p.quick = true →
      ∀ u, (s'.point u).quick = true := by
    intro t p hpoint hp u
    rw [hpoint, Function.update_apply]
    split
    · exact hp
    · exact h u
  cases move with
  | wait t =>
    obtain ⟨-, ⟨⟩⟩ := Option.ite_none_right_eq_some.mp hs
    exact hupdate t _ rfl rfl
  | signal t =>
    obtain ⟨-, ⟨⟩⟩ := Option.ite_none_right_eq_some.mp hs
    exact hupdate t _ rfl rfl
  | thread t atOnce =>
    obtain ⟨p, hpoint, hp⟩ := threadStep_quick (h t) hstarves hs
    exact hupdate t p hpoint hp
  | timer t =>
    obtain ⟨-, ⟨⟩⟩ := Option.ite_none_right_eq_some.mp hs
    exact h
  | interrupt t =>
    obtain ⟨b, -, rfl⟩ := Option.map_eq_some_iff.mp hs
    exact h

theorem quick_of_reaches (h : (system T n).Reaches (fun s move ↦ ¬ Starves s move) s) :
    ∀ t, (s.point t).quick = true := by
  refine h.invariant (fun s hs t ↦ ?_) fun s move s' hinv hstarves hs ↦ step_quick hinv hstarves hs
  rw [hs.point t]
  rfl

/-- **A thread that waits cannot be signalled.**  In a run in which no wait starves, no thread
sleeps while the lock is held; and in any run, a thread that is asleep in `wait` holds it. -/
theorem signallable_iff (n : ℕ) :
    (∀ s : Semaphore T, (system T n).Reaches (fun s move ↦ ¬ Starves s move) s → Signallable s) ∧
      ∀ s : Semaphore T, (system T n).Reaches (fun _ _ ↦ True) s → ∀ t b, s.point t = .asleep b →
        s.thread t = .blocked → ¬ Signallable s := by
  constructor
  · intro s h _ t b hasleep
    have hpoint := quick_of_reaches h t
    rw [hasleep] at hpoint
    cases hpoint
  · intro s h t b hasleep hblocked hsignal
    have hlock := (exclusive_of_reaches h).lock t (by rw [hasleep]; rfl)
    exact hsignal hlock t b hasleep hblocked

/-- A new semaphore for two threads. -/
def fresh (n : ℕ) : Semaphore (Fin 2) where
  val := BitVec.ofNat 32 n
  lock := false
  blocked := []
  blocker := fun _ ↦ ⟨0, false, false, false, false⟩
  next := 0
  thread := fun _ ↦ .running
  blockedTimeout := fun _ ↦ false
  pending := fun _ ↦ false
  point := fun _ ↦ .outside
  taken := 0
  granted := 0
  refused := 0
  signals := 0

theorem reaches_fresh (n : ℕ) (P : Semaphore (Fin 2) → Move (Fin 2) → Prop) :
    (system (Fin 2) n).Reaches P (fresh n) :=
  .initial ⟨rfl, rfl, rfl, fun _ ↦ rfl, rfl, rfl, rfl, rfl⟩

/-- The first thread waits for nothing. -/
def waits : List (Move (Fin 2)) := .wait 0 :: List.replicate 6 (.thread 0 false)

/-- A wait that has got the lock and a permit to take, and one that is asleep. -/
theorem signallable_two : (∃ s : Semaphore (Fin 2), Signallable s ∧ s.point 0 = .decrement) ∧
    ∃ s : Semaphore (Fin 2), ¬ Signallable s := by
  constructor
  · have hlock : ¬ Starves ((fresh 1).goto 0 .waitLock) (.thread 0 false) :=
      fun h ↦ Point.noConfusion h.1
    have hcall := (reaches_fresh 1 fun s move ↦ ¬ Starves s move).step (m := .wait 0) id rfl
    exact ⟨_, (signallable_iff 1).1 _ (hcall.step hlock rfl), rfl⟩
  · exact ⟨_, (signallable_iff 0).2 _ ((reaches_fresh 0 _).foldlM (fun _ _ _ ↦ trivial)
      (show waits.foldlM step _ = some _ from rfl)) 0 0 rfl rfl⟩

/-- A thread waits for a permit, and the one that wants to signal it spins. -/
theorem signal_spins : ∃ s, (system (Fin 2) 0).Reaches (fun _ _ ↦ True) s ∧
    s.point 0 = .asleep 0 ∧ s.thread 0 = .blocked ∧ s.point 1 = .signalLock ∧
    (∀ atOnce, s.threadStep 1 atOnce = none) ∧ ¬ Signallable s := by
  refine ⟨_, (reaches_fresh 0 _).foldlM (fun _ _ _ ↦ trivial)
    (show (waits ++ [Move.signal 1]).foldlM step _ = some _ from rfl), rfl, rfl, rfl,
    fun _ ↦ rfl, fun h ↦ h rfl 0 0 rfl rfl⟩

/-! ## Permits -/

/-- What holds while no wait starves and the count stays below its limit. -/
structure Served (n : ℕ) (s : Semaphore T) : Prop where
  quick : ∀ t, (s.point t).quick = true
  exclusive : Exclusive s
  blocked : s.blocked = []
  val : s.val.toInt = n + s.signals - s.taken
  taken_le : s.taken ≤ n + s.signals
  refused : s.refused = 0
  granted_le : s.granted ≤ s.taken
  leave : ∀ t result, s.point t = .leave result → s.granted < s.taken
  wake : ∀ t, s.point t = .wake → s.taken < n + s.signals

theorem toInt_sub_one {v : U32} (h : 0 < v.toInt) : (v - 1).toInt = v.toInt - 1 := by
  have hlt := BitVec.toInt_lt (x := v)
  have hone : (1 : U32).toInt = 1 := rfl
  rw [BitVec.toInt_sub, hone]
  exact Int.bmod_eq_of_le (by norm_num; omega) (by norm_num; omega)

theorem toInt_add_one {v : U32} (h : v.toInt ≠ 2 ^ 31 - 1) : (v + 1).toInt = v.toInt + 1 := by
  have hlt := BitVec.toInt_lt (x := v)
  have hle := BitVec.le_toInt v
  have hone : (1 : U32).toInt = 1 := rfl
  rw [BitVec.toInt_add, hone]
  exact Int.bmod_eq_of_le (by norm_num; omega) (by norm_num; omega)

omit [DecidableEq T] in
theorem Initial.served (hn : n < 2 ^ 31) (h : Initial n s) : Served n s where
  quick t := by rw [h.point]; rfl
  exclusive := h.exclusive
  blocked := h.blocked
  val := by
    rw [h.val, h.signals, h.taken, BitVec.toInt_ofNat', Int.bmod_eq_of_le (by norm_num)]
    · simp
    · norm_num
      omega
  taken_le := by
    rw [h.taken]
    exact Nat.zero_le _
  refused := h.refused
  granted_le := by rw [h.taken, h.granted]
  leave t result ht := Point.noConfusion ((h.point t).symm.trans ht)
  wake t ht := Point.noConfusion ((h.point t).symm.trans ht)

theorem point_of_update {p x : Point} {u : T} (hne : p ≠ x)
    (h : Function.update s.point t p u = x) : s.point u = x := by
  rw [Function.update_apply] at h
  split at h
  · exact absurd h hne
  · exact h

theorem Served.thread (h : Served n s) {atOnce : Bool}
    (hstarves : ¬ Starves s (.thread t atOnce)) (hover : ¬ Overflows s (.thread t atOnce))
    (hs : s.threadStep t atOnce = some s') : Served n s' := by
  obtain ⟨p, hm⟩ := threadStep_moves hs
  have hexclusive := h.exclusive.moves hm
  have hstep : step s (.thread t atOnce) = some s' := hs
  have hquick : ∀ u, (s'.point u).quick = true := step_quick h.quick hstarves hstep
  have hpoint := h.quick t
  have halone : ∀ u, (s.point t).inside = true → (s.point u).inside = true → u = t :=
    fun u ht hu ↦ h.exclusive.one u t hu ht
  unfold threadStep at hs
  cases hp : s.point t with
  | outside => simp [hp] at hs
  | push | prepare | mark | testTimeout | asleep | interrupt | finish =>
    rw [hp] at hpoint
    cases hpoint
  | waitLock | signalLock =>
    rw [hp] at hs
    obtain ⟨-, ⟨⟩⟩ := Option.ite_none_left_eq_some.mp hs
    exact { h with
      quick := hquick
      exclusive := hexclusive
      leave := fun u result hu ↦ h.leave u result (point_of_update Point.noConfusion hu)
      wake := fun u hu ↦ h.wake u (point_of_update Point.noConfusion hu) }
  | decrement =>
    have hpos : 0 < s.val.toInt := not_le.mp fun hle ↦ hstarves ⟨hp, hle⟩
    have hval := h.val
    rw [hp] at hs
    dsimp only at hs
    rw [if_neg (not_le.mpr hpos)] at hs
    cases hs
    exact {
      quick := hquick
      exclusive := hexclusive
      blocked := h.blocked
      val := by
        change (s.val - 1).toInt = (n : ℤ) + s.signals - (s.taken + 1 : ℕ)
        rw [toInt_sub_one hpos, hval]
        push_cast
        ring
      taken_le := by
        change s.taken + 1 ≤ n + s.signals
        omega
      refused := h.refused
      granted_le := h.granted_le.trans (Nat.le_succ _)
      leave := fun _ _ _ ↦ Nat.lt_succ_of_le h.granted_le
      wake := fun u hu ↦ by
        have hu' : s.point u = .wake := point_of_update Point.noConfusion hu
        obtain rfl := halone u (by rw [hp]; rfl) (by rw [hu']; rfl)
        exact Point.noConfusion (hp.symm.trans hu') }
  | leave result =>
    rw [hp] at hpoint
    obtain rfl : result = true := by cases result <;> [cases hpoint; rfl]
    have hlt := h.leave t true hp
    rw [hp] at hs
    cases hs
    exact { h with
      quick := hquick
      exclusive := hexclusive
      granted_le := hlt
      leave := fun u result hu ↦ by
        have hu' := point_of_update Point.noConfusion hu
        obtain rfl := halone u (by rw [hp]; rfl) (by rw [hu']; rfl)
        change Function.update s.point u _ u = _ at hu
        rw [Function.update_self] at hu
        cases hu
      wake := fun u hu ↦ h.wake u (point_of_update Point.noConfusion hu) }
  | increment =>
    have hne : s.val.toInt ≠ 2 ^ 31 - 1 := fun heq ↦ hover ⟨hp, heq⟩
    have hval := h.val
    rw [hp] at hs
    cases hs
    exact { h with
      quick := hquick
      exclusive := hexclusive
      val := by
        change (s.val + 1).toInt = (n : ℤ) + (s.signals + 1 : ℕ) - s.taken
        rw [toInt_add_one hne, hval]
        push_cast
        ring
      taken_le := h.taken_le.trans (Nat.le_succ _)
      leave := fun u result hu ↦ h.leave u result (point_of_update Point.noConfusion hu)
      wake := fun _ _ ↦ Nat.lt_succ_of_le h.taken_le }
  | wake =>
    rw [hp] at hs
    dsimp only at hs
    rw [h.blocked] at hs
    cases hs
    exact { h with
      quick := hquick
      exclusive := hexclusive
      leave := fun u result hu ↦ h.leave u result (point_of_update Point.noConfusion hu)
      wake := fun u hu ↦ h.wake u (point_of_update Point.noConfusion hu) }
  | signalUnlock =>
    rw [hp] at hs
    cases hs
    exact { h with
      quick := hquick
      exclusive := hexclusive
      leave := fun u result hu ↦ h.leave u result (point_of_update Point.noConfusion hu)
      wake := fun u hu ↦ h.wake u (point_of_update Point.noConfusion hu) }

/-- A thread that calls is not inside yet. -/
theorem Served.call (h : Served n s) (hout : s.point t = .outside) {p : Point}
    (hp : p = .waitLock ∨ p = .signalLock) : Served n (s.goto t p) := by
  have hinside : p.inside = (s.point t).inside := by
    obtain rfl | rfl := hp <;> rw [hout] <;> rfl
  have hne : ∀ {x : Point}, x.inside = true → p ≠ x := by
    rintro x hx rfl
    rw [hinside, hout] at hx
    cases hx
  exact { h with
    quick := fun u ↦ by
      change (Function.update s.point t p u).quick = true
      rw [Function.update_apply]
      split
      · obtain rfl | rfl := hp <;> rfl
      · exact h.quick u
    exclusive := h.exclusive.moves ⟨rfl, .inl ⟨hinside, rfl⟩⟩
    leave := fun u result hu ↦ h.leave u result (point_of_update (hne rfl) hu)
    wake := fun u hu ↦ h.wake u (point_of_update (hne rfl) hu) }

/-- **One step.** -/
theorem Served.step (h : Served n s) (hstarves : ¬ Starves s move) (hover : ¬ Overflows s move)
    (hs : step s move = some s') : Served n s' := by
  cases move with
  | wait t =>
    obtain ⟨hout, ⟨⟩⟩ := Option.ite_none_right_eq_some.mp hs
    exact h.call hout (.inl rfl)
  | signal t =>
    obtain ⟨hout, ⟨⟩⟩ := Option.ite_none_right_eq_some.mp hs
    exact h.call hout (.inr rfl)
  | thread t atOnce => exact h.thread hstarves hover hs
  | timer t =>
    obtain ⟨-, ⟨⟩⟩ := Option.ite_none_right_eq_some.mp hs
    exact { h with exclusive := ⟨h.exclusive.lock, h.exclusive.one⟩ }
  | interrupt t =>
    obtain ⟨b, hb, rfl⟩ := Option.map_eq_some_iff.mp hs
    have hquick := h.quick t
    cases hp : s.point t <;> rw [hp] at hb hquick <;>
      first | exact absurd hquick Bool.false_ne_true | cases hb

omit [DecidableEq T] in
theorem Served.conserved (h : Served n s) : Conserved n s where
  granted_le := h.granted_le.trans h.taken_le
  count := by
    rw [h.val, h.refused, Nat.cast_zero, add_zero]
  queued b hb := by
    rw [h.blocked] at hb
    cases hb
  signal t ht := by
    have hlt := h.wake t ht
    have hval := h.val
    exact .inl ⟨h.blocked, by omega⟩

/-! ## Waits that starve -/

/-- A wait that has had to block goes on only when its time is over. -/
structure Slow (s : Semaphore T) (t : T) : Prop where
  prepare : ∀ b, s.point t = .prepare b → (s.blocker b).shouldBlock = true
  testTimeout : ∀ b, s.point t = .testTimeout b →
    s.thread t = .blocked ∨ s.blockedTimeout t = true
  asleep : ∀ b, s.point t = .asleep b → s.thread t = .blocked ∨ s.blockedTimeout t = true
  interrupt : ∀ b, s.point t = .interrupt b → s.blockedTimeout t = true
  finish : ∀ b, s.point t = .finish b → s.blockedTimeout t = true

/-- Where a thread is in `block`. -/
def Point.slow : Point → Bool
  | .prepare _ | .testTimeout _ | .asleep _ | .interrupt _ | .finish _ => true
  | _ => false

theorem Point.inside_of_slow {p : Point} (h : p.slow = true) : p.inside = true := by
  cases p <;> first | rfl | cases h

theorem Point.inside_of_waitsOn {p : Point} {b : ℕ} (h : p.waitsOn = some b) :
    p.inside = true := by
  cases p <;> first | rfl | cases h

omit [DecidableEq T] in
/-- A thread that is elsewhere. -/
theorem slow_of_not (h : (s.point t).slow ≠ true) : Slow s t := by
  constructor <;> intro b hb <;> exact absurd (by rw [hb]; rfl) h

omit [DecidableEq T] in
/-- A thread whose time is over. -/
theorem slow_of_timeout (h : s.blockedTimeout t = true) (hp : ∀ b, s.point t ≠ .prepare b) :
    Slow s t :=
  ⟨fun b hb ↦ absurd hb (hp b), fun _ _ ↦ .inr h, fun _ _ ↦ .inr h, fun _ _ ↦ h, fun _ _ ↦ h⟩

omit [DecidableEq T] in
/-- A thread that is, or is going to be, asleep. -/
theorem slow_of_blocked (h : s.thread t = .blocked) {b : ℕ}
    (hp : s.point t = .testTimeout b ∨ s.point t = .asleep b) : Slow s t := by
  refine ⟨fun b hb ↦ ?_, fun _ _ ↦ .inl h, fun _ _ ↦ .inl h, fun b hb ↦ ?_, fun b hb ↦ ?_⟩
  all_goals
    rw [hb] at hp
    obtain hp | hp := hp <;> cases hp

/-- While a thread is inside, no other gets on. -/
theorem Exclusive.alone (h : Exclusive s) {u : T} (hu : (s.point u).inside = true) (hne : u ≠ t)
    {atOnce : Bool} : s.threadStep t atOnce = none := by
  have hlock := h.lock u hu
  have hout : (s.point t).inside ≠ true := fun ht ↦ hne (h.one u t hu ht)
  unfold threadStep
  cases hp : s.point t <;> first | rfl | exact if_pos hlock | exact absurd (by rw [hp]; rfl) hout

theorem Slow.thread_self (h : Slow s t) {atOnce : Bool} (hs : s.threadStep t atOnce = some s') :
    Slow s' t := by
  have hat : ∀ {s' : Semaphore T} {p : Point}, s'.point = Function.update s.point t p →
      s'.point t = p := fun hpoint ↦ by rw [hpoint, Function.update_self]
  unfold threadStep at hs
  cases hp : s.point t with
  | outside => simp [hp] at hs
  | waitLock | signalLock =>
    rw [hp] at hs
    obtain ⟨-, ⟨⟩⟩ := Option.ite_none_left_eq_some.mp hs
    exact slow_of_not (by rw [hat rfl]; decide)
  | decrement =>
    rw [hp] at hs
    cases hs
    refine slow_of_not ?_
    rw [hat rfl]
    split <;> decide
  | push =>
    rw [hp] at hs
    cases hs
    constructor
    · intro b hb
      rw [hat rfl] at hb
      cases hb
      change (Function.update s.blocker s.next _ s.next).shouldBlock = true
      rw [Function.update_self]
    all_goals
      intro b hb
      rw [hat rfl] at hb
      cases hb
  | prepare b =>
    rw [hp] at hs
    dsimp only at hs
    rw [if_pos (h.prepare b hp)] at hs
    cases hs
    refine slow_of_not ?_
    cases atOnce <;> rw [hat rfl] <;> exact Bool.false_ne_true
  | mark b =>
    rw [hp] at hs
    cases hs
    exact slow_of_blocked (Function.update_self ..) (.inl (hat rfl))
  | testTimeout b =>
    rw [hp] at hs
    dsimp only at hs
    by_cases htimeout : s.blockedTimeout t = true
    · rw [if_pos htimeout] at hs
      cases hs
      exact slow_of_timeout htimeout fun b hb ↦ Point.noConfusion ((hat rfl).symm.trans hb)
    · rw [if_neg htimeout] at hs
      cases hs
      exact slow_of_blocked ((h.testTimeout b hp).resolve_right htimeout) (.inr (hat rfl))
  | asleep b =>
    rw [hp] at hs
    obtain ⟨hawake, ⟨⟩⟩ := Option.ite_none_left_eq_some.mp hs
    exact slow_of_timeout ((h.asleep b hp).resolve_left hawake)
      fun b hb ↦ Point.noConfusion ((hat rfl).symm.trans hb)
  | interrupt b =>
    rw [hp] at hs
    cases hs
    exact slow_of_timeout (h.interrupt b hp)
      fun b hb ↦ Point.noConfusion ((hat rfl).symm.trans hb)
  | finish | leave | increment | signalUnlock =>
    rw [hp] at hs
    cases hs
    exact slow_of_not (by rw [hat rfl]; exact Bool.false_ne_true)
  | wake =>
    rw [hp] at hs
    dsimp only at hs
    refine slow_of_not ?_
    split at hs <;> cases hs
    · rw [hat rfl]
      decide
    · rw [unblockBlocker_point, goto, hat rfl]
      decide

theorem Slow.thread (h : ∀ t, Slow s t) (hex : Exclusive s) {atOnce : Bool}
    (hs : s.threadStep t atOnce = some s') (u : T) : Slow s' u := by
  obtain rfl | hne := eq_or_ne u t
  · exact (h u).thread_self hs
  · obtain ⟨p, hm⟩ := threadStep_moves hs
    refine slow_of_not fun hslow ↦ ?_
    rw [hm.point, Function.update_of_ne hne] at hslow
    rw [hex.alone (Point.inside_of_slow hslow) hne] at hs
    cases hs

/-- **One step.** -/
theorem Slow.step (h : ∀ t, Slow s t) (hex : Exclusive s) (hs : s.step move = some s') (u : T) :
    Slow s' u := by
  have hcall : ∀ t p, p.slow ≠ true → Slow (s.goto t p) u := by
    intro t p hp
    obtain rfl | hne := eq_or_ne u t
    · exact slow_of_not (by rwa [goto_self])
    · have hsame := s.goto_of_ne hne p
      obtain ⟨hprepare, htest, hasleep, hinterrupt, hfinish⟩ := h u
      constructor <;> intro b hb <;> rw [hsame] at hb
      exacts [hprepare b hb, htest b hb, hasleep b hb, hinterrupt b hb, hfinish b hb]
  cases move with
  | wait t =>
    obtain ⟨-, ⟨⟩⟩ := Option.ite_none_right_eq_some.mp hs
    exact hcall t _ (by decide)
  | signal t =>
    obtain ⟨-, ⟨⟩⟩ := Option.ite_none_right_eq_some.mp hs
    exact hcall t _ (by decide)
  | thread t atOnce => exact Slow.thread h hex hs u
  | timer t =>
    obtain ⟨-, ⟨⟩⟩ := Option.ite_none_right_eq_some.mp hs
    obtain rfl | hne := eq_or_ne u t
    · have htimeout : (s.timeOut u).blockedTimeout u = true := Function.update_self ..
      exact ⟨(h u).prepare, fun _ _ ↦ .inr htimeout, fun _ _ ↦ .inr htimeout, fun _ _ ↦ htimeout,
        fun _ _ ↦ htimeout⟩
    · have hthread : (s.timeOut t).thread u = s.thread u := Function.update_of_ne hne ..
      have htimeout : (s.timeOut t).blockedTimeout u = s.blockedTimeout u :=
        Function.update_of_ne hne ..
      obtain ⟨hprepare, htest, hasleep, hinterrupt, hfinish⟩ := h u
      constructor
      · exact hprepare
      all_goals rw [htimeout]
      · rwa [hthread]
      · rwa [hthread]
      · exact hinterrupt
      · exact hfinish
  | interrupt t =>
    obtain ⟨b, hb, rfl⟩ := Option.map_eq_some_iff.mp hs
    have hprepare : ∀ b, s.point u ≠ .prepare b := by
      intro b' hu
      obtain rfl := hex.one u t (by rw [hu]; rfl) (Point.inside_of_waitsOn hb)
      rw [hu] at hb
      cases hb
    exact ⟨fun b hu ↦ absurd hu (hprepare b), (h u).testTimeout, (h u).asleep, (h u).interrupt,
      (h u).finish⟩

theorem slow_of_reaches (h : (system T n).Reaches (fun _ _ ↦ True) s) : ∀ t, Slow s t := by
  induction h with
  | initial h => exact fun t ↦ slow_of_not (by rw [h.point]; decide)
  | step h _ hs ih => exact Slow.step ih (exclusive_of_reaches h) hs

/-! ## The count -/

/-- What the count has been changed by, as far as its width goes. -/
def Counted (n : ℕ) (s : Semaphore T) : Prop :=
  (2 ^ 32 : ℤ) ∣ s.val.toInt - (n + s.signals - s.taken)

omit [DecidableEq T] in
/-- Nothing is counted. -/
theorem Counted.same (h : Counted n s) (hval : s'.val = s.val) (hsignals : s'.signals = s.signals)
    (htaken : s'.taken = s.taken) : Counted n s' := by
  rw [Counted, hval, hsignals, htaken]
  exact h

theorem dvd_toInt_sub_one (v : U32) : (2 ^ 32 : ℤ) ∣ (v - 1).toInt - (v.toInt - 1) := by
  rw [BitVec.toInt_sub]
  exact Int.dvd_bmod_sub_self

theorem dvd_toInt_add_one (v : U32) : (2 ^ 32 : ℤ) ∣ (v + 1).toInt - (v.toInt + 1) := by
  rw [BitVec.toInt_add]
  exact Int.dvd_bmod_sub_self

omit [DecidableEq T] in
theorem Initial.counted (h : Initial n s) : Counted n s := by
  rw [Counted, h.val, h.signals, h.taken, BitVec.toInt_ofNat']
  rw [Nat.cast_zero, add_zero, sub_zero]
  exact Int.dvd_bmod_sub_self

theorem unblockBlocker_counts (s : Semaphore T) (b : ℕ) : (s.unblockBlocker b).val = s.val ∧
    (s.unblockBlocker b).signals = s.signals ∧ (s.unblockBlocker b).taken = s.taken := by
  unfold unblockBlocker
  dsimp only
  split <;> exact ⟨rfl, rfl, rfl⟩

theorem Counted.thread (h : Counted n s) {atOnce : Bool} (hs : s.threadStep t atOnce = some s') :
    Counted n s' := by
  unfold threadStep at hs
  cases hp : s.point t with
  | outside => simp [hp] at hs
  | waitLock | signalLock | asleep =>
    rw [hp] at hs
    obtain ⟨-, ⟨⟩⟩ := Option.ite_none_left_eq_some.mp hs
    exact h.same rfl rfl rfl
  | decrement =>
    rw [hp] at hs
    cases hs
    have hsum : (s.val - 1).toInt - ((n : ℤ) + s.signals - (s.taken + 1 : ℕ)) =
        (s.val - 1).toInt - (s.val.toInt - 1) + (s.val.toInt - (n + s.signals - s.taken)) := by
      push_cast
      ring
    exact (dvd_add (dvd_toInt_sub_one s.val) h).trans hsum.symm.dvd
  | increment =>
    rw [hp] at hs
    cases hs
    have hsum : (s.val + 1).toInt - ((n : ℤ) + (s.signals + 1 : ℕ) - s.taken) =
        (s.val + 1).toInt - (s.val.toInt + 1) + (s.val.toInt - (n + s.signals - s.taken)) := by
      push_cast
      ring
    exact (dvd_add (dvd_toInt_add_one s.val) h).trans hsum.symm.dvd
  | prepare b =>
    rw [hp] at hs
    dsimp only at hs
    split at hs <;> cases hs
    · cases atOnce <;> exact h.same rfl rfl rfl
    · exact h.same rfl rfl rfl
  | wake =>
    rw [hp] at hs
    dsimp only at hs
    split at hs <;> cases hs
    · exact h.same rfl rfl rfl
    · obtain ⟨hval, hsignals, htaken⟩ := unblockBlocker_counts (s.goto t .signalUnlock) _
      exact h.same hval hsignals htaken
  | _ =>
    rw [hp] at hs
    cases hs
    exact h.same rfl rfl rfl

theorem counted_of_reaches (h : (system T n).Reaches (fun _ _ ↦ True) s) : Counted n s := by
  refine h.invariant (fun _ ↦ Initial.counted) fun s move s' hinv _ hs ↦ ?_
  cases move with
  | wait t =>
    obtain ⟨-, ⟨⟩⟩ := Option.ite_none_right_eq_some.mp hs
    exact hinv.same rfl rfl rfl
  | signal t =>
    obtain ⟨-, ⟨⟩⟩ := Option.ite_none_right_eq_some.mp hs
    exact hinv.same rfl rfl rfl
  | thread t atOnce => exact hinv.thread hs
  | timer t =>
    obtain ⟨-, ⟨⟩⟩ := Option.ite_none_right_eq_some.mp hs
    exact hinv.same rfl rfl rfl
  | interrupt t =>
    obtain ⟨b, -, rfl⟩ := Option.map_eq_some_iff.mp hs
    exact hinv.same rfl rfl rfl

omit [DecidableEq T] in
/-- A wait that has been refused is missing in the count. -/
theorem Counted.not_conserved (h : Counted n s) (hpos : 0 < s.refused) (hlt : s.refused < 2 ^ 32) :
    ¬ Conserved n s := by
  intro hc
  have hcount := hc.count
  unfold Counted at h
  omega

/-- **Permits are conserved** in a run in which no wait starves and no signal finds the count at its
limit.  In any run, a wait that has had to block is refused, and with the first one that is, what it
has taken is lost. -/
theorem conserved_iff (hn : n < 2 ^ 31) :
    (∀ s : Semaphore T, (system T n).Reaches
      (fun s move ↦ ¬ Starves s move ∧ ¬ Overflows s move) s →
      Conserved n s) ∧
      ∀ s : Semaphore T, (system T n).Reaches (fun _ _ ↦ True) s →
        (∀ t b s' atOnce, s.point t = .finish b → s.threadStep t atOnce = some s' →
          s'.point t = .leave false) ∧
        (0 < s.refused → s.refused < 2 ^ 32 → ¬ Conserved n s) := by
  refine ⟨fun s h ↦ ?_, fun s h ↦ ⟨?_, (counted_of_reaches h).not_conserved⟩⟩
  · have hserved : Served n s := h.invariant (fun _ ↦ Initial.served hn)
      fun s move s' hinv hmove hs ↦ hinv.step hmove.1 hmove.2 hs
    exact hserved.conserved
  · intro t b s' atOnce hp hs
    have htimeout := (slow_of_reaches h t).finish b hp
    rw [threadStep, hp] at hs
    cases hs
    refine (goto_self ..).trans ?_
    rw [htimeout]
    rfl

/-- A wait that is about to take the lock, with the permit still there, and one that is in vain. -/
theorem conserved_two : Conserved 1 ((fresh 1).goto 0 .waitLock) ∧
    ∃ s : Semaphore (Fin 2), s.refused = 1 ∧ ¬ Conserved 0 s := by
  constructor
  · exact (conserved_iff (by decide)).1 _ ((reaches_fresh 1 _).step (m := .wait 0) ⟨id, id⟩ rfl)
  · exact ⟨_, rfl, ((conserved_iff (by decide)).2 _
      ((reaches_fresh 0 _).foldlM (fun _ _ _ ↦ trivial)
      (show (waits ++ Move.timer 0 :: List.replicate 3 (Move.thread 0 false)).foldlM step _ = some _
        from rfl))).2 one_pos (by decide)⟩

/-- A wait is refused when its time is over, and the signal that comes then finds its blocker still
in the queue, wakes nobody and leaves nothing to take. -/
theorem permit_lost : ∃ s, (system (Fin 2) 0).Reaches (fun _ _ ↦ True) s ∧ s.refused = 1 ∧
    s.point 1 = .wake ∧ s.blocked = [0] ∧ s.val = 0 ∧ (∀ t, s.thread t = .running) ∧
    ¬ Conserved 0 s := by
  refine ⟨_, (reaches_fresh 0 _).foldlM (fun _ _ _ ↦ trivial)
    (show (waits ++ Move.timer 0 :: List.replicate 3 (Move.thread 0 false) ++
      Move.signal 1 :: List.replicate 2 (Move.thread 1 false)).foldlM step _ = some _ from rfl),
    rfl, rfl, rfl, rfl, by decide, fun h ↦ absurd h.count (by decide)⟩

end Semaphore

end Borrrdex
