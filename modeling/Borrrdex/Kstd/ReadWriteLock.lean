import Borrrdex.Lib.Census
import Borrrdex.Basic
import Mathlib.Tactic

/-!
# The readers-writer lock

`read_write_lock` is two spinlocks and a counter.  The first reader takes the write lock, the last
one gives it back, and readers come in one after the other, through the read lock.

Any number of threads use one lock, each for one thing at a time, and `step` is one atomic step of
one of them: a `__sync_lock_test_and_set`, an atomic addition or subtraction, or a release.  A
thread that spins stays where it is.  `Census` ties the locks and the counter to the program points,
and `exclusion` reads off it that no writer is inside with anybody else.

The counter is an `unsigned`.  One reader more than it can count is taken for the first one, and
`overflow` is what follows.
-/

set_option autoImplicit false

universe u

namespace Borrrdex

/-- `acquire_test_lock`: whether the lock was free.  It is taken afterwards. -/
def acquireTestLock (lock : Bool) : Bool := !lock

namespace ReadWriteLock

/-- Where a thread is in its use of the lock. -/
inductive Point
  /-- In no operation, and not inside. -/
  | outside
  /-- `acquire_lock(&_read_lock)`. -/
  | wantRead
  /-- `__atomic_add_fetch(&_active_readers, 1)`. -/
  | countIn
  /-- `acquire_lock(&_write_lock)`, as the first reader. -/
  | firstReader
  /-- `release_lock(&_read_lock)`. -/
  | exitRead
  /-- Between `acquire_read` and `release_read`, up to `__atomic_sub_fetch(&_active_readers, 1)`. -/
  | reading
  /-- `release_lock(&_write_lock)`, as the last reader. -/
  | lastReader
  /-- `acquire_lock(&_write_lock)`. -/
  | wantWrite
  /-- Between `acquire_write` and `release_write`, up to `release_lock(&_write_lock)`. -/
  | writing
deriving DecidableEq

/-- What a thread that is outside may call. -/
inductive Call
  | acquireRead
  | acquireWrite
  | tryAcquireWrite
deriving DecidableEq

end ReadWriteLock

/-- A `read_write_lock`, and where the threads are that use it. -/
structure ReadWriteLock (T : Type u) where
  readLock : Bool
  writeLock : Bool
  activeReaders : U32
  point : T → ReadWriteLock.Point

namespace ReadWriteLock

variable {T : Type u}

/-- A lock that nobody uses. -/
def initial (T : Type u) : ReadWriteLock T where
  readLock := false
  writeLock := false
  activeReaders := 0
  point := fun _ ↦ .outside

variable [DecidableEq T]

/-- A thread gets on. -/
def goto (l : ReadWriteLock T) (t : T) (p : Point) : ReadWriteLock T :=
  { l with point := Function.update l.point t p }

/-- **One atomic step of a thread.**  `call` is what it calls if it is outside. -/
def step (l : ReadWriteLock T) (t : T) (call : Call) : ReadWriteLock T :=
  match l.point t with
  | .outside =>
    match call with
    | .acquireRead => l.goto t .wantRead
    | .acquireWrite => l.goto t .wantWrite
    | .tryAcquireWrite =>
      { l.goto t (if acquireTestLock l.writeLock then .writing else .outside) with
        writeLock := true }
  | .wantRead =>
    { l.goto t (if acquireTestLock l.readLock then .countIn else .wantRead) with readLock := true }
  | .countIn =>
    { l.goto t (if l.activeReaders + 1 = 1 then .firstReader else .exitRead) with
      activeReaders := l.activeReaders + 1 }
  | .firstReader =>
    { l.goto t (if acquireTestLock l.writeLock then .exitRead else .firstReader) with
      writeLock := true }
  | .exitRead => { l.goto t .reading with readLock := false }
  | .reading =>
    { l.goto t (if l.activeReaders - 1 = 0 then .lastReader else .outside) with
      activeReaders := l.activeReaders - 1 }
  | .lastReader => { l.goto t .outside with writeLock := false }
  | .wantWrite =>
    { l.goto t (if acquireTestLock l.writeLock then .writing else .wantWrite) with
      writeLock := true }
  | .writing => { l.goto t .outside with writeLock := false }

/-- Steps, one after the other. -/
def run (l : ReadWriteLock T) (steps : List (T × Call)) : ReadWriteLock T :=
  steps.foldl (fun l (t, call) ↦ l.step t call) l

theorem run_append (l : ReadWriteLock T) (steps steps' : List (T × Call)) :
    l.run (steps ++ steps') = (l.run steps).run steps' :=
  List.foldl_append

/-! ## Kinds of program points -/

namespace Point

/-- In the part of `acquire_read` that the read lock guards. -/
def entering : Point → Bool
  | .countIn | .firstReader | .exitRead => true
  | _ => false

/-- A reader that has the write lock, alone or with others. -/
def sharing : Point → Bool
  | .exitRead | .reading => true
  | _ => false

/-- The reader that is to get the write lock. -/
def first (p : Point) : Bool := p = .firstReader

/-- One that has the write lock to itself. -/
def owning : Point → Bool
  | .lastReader | .writing => true
  | _ => false

/-- A reader that is inside, up to the end of its `release_read`. -/
def reader : Point → Bool
  | .exitRead | .reading | .lastReader => true
  | _ => false

end Point

section

variable {T : Type u} [Fintype T] {l : ReadWriteLock T} {t : T}

/-- **The locks and the counter, by the program points of all threads.** -/
structure Census (l : ReadWriteLock T) : Prop where
  readLock : l.readLock.toNat = census Point.entering l.point
  activeReaders : l.activeReaders =
    BitVec.ofNat 32 (census Point.first l.point + census Point.sharing l.point)
  writeLock : l.writeLock.toNat =
    census Point.owning l.point + min 1 (census Point.sharing l.point)
  first : census Point.first l.point = 0 ∨ census Point.sharing l.point = 0

theorem census_initial : Census (initial T) := by
  have hzero : ∀ p : Point → Bool, p .outside = false → census p (initial T).point = 0 :=
    fun p hp ↦ census_eq_zero fun _ ↦ hp
  have hentering := hzero Point.entering rfl
  have hfirst := hzero Point.first rfl
  have hsharing := hzero Point.sharing rfl
  have howning := hzero Point.owning rfl
  refine ⟨?_, ?_, ?_, .inl hfirst⟩
  · rw [hentering]
    rfl
  · rw [hfirst, hsharing]
    rfl
  · rw [howning, hsharing]
    rfl

theorem Point.sharing_of_first (p : Point) (h : p.first = true) : p.sharing = false := by
  cases p <;> first | rfl | cases h

/-- Those counted are different threads. -/
theorem count_le_card (l : ReadWriteLock T) :
    census Point.first l.point + census Point.sharing l.point ≤ Fintype.card T := by
  rw [census_add Point.sharing_of_first, census_eq_card]
  exact Finset.card_le_univ _

theorem count_lt_card (hfirst : (l.point t).first = false)
    (hsharing : (l.point t).sharing = false) :
    census Point.first l.point + census Point.sharing l.point < Fintype.card T := by
  rw [census_add Point.sharing_of_first]
  exact census_lt_card (t := t) (by rw [hfirst, hsharing]; rfl)

end

/-! ## The steps -/

variable [Fintype T] {l : ReadWriteLock T} {t : T}

/-- A thread gets on to a point that counts as the one before. -/
theorem Census.goto (h : Census l) {x y : Point} (hx : l.point t = x)
    (hentering : x.entering = y.entering) (hfirst : x.first = y.first)
    (hsharing : x.sharing = y.sharing) (howning : x.owning = y.owning) : Census (l.goto t y) where
  readLock := h.readLock.trans (census_stay hx hentering).symm
  activeReaders := by
    rw [ReadWriteLock.goto, census_stay hx hfirst, census_stay hx hsharing]
    exact h.activeReaders
  writeLock := by
    rw [ReadWriteLock.goto, census_stay hx howning, census_stay hx hsharing]
    exact h.writeLock
  first := by
    rw [ReadWriteLock.goto, census_stay hx hfirst, census_stay hx hsharing]
    exact h.first

/-! ### The counter -/

theorem ofNat_succ (n : ℕ) : BitVec.ofNat 32 n + 1 = BitVec.ofNat 32 (n + 1) :=
  (BitVec.ofNat_add n 1).symm

theorem ofNat_pred (n : ℕ) : BitVec.ofNat 32 (n + 1) - 1 = BitVec.ofNat 32 n := by
  rw [← ofNat_succ, BitVec.add_sub_cancel]

/-- The counter tells a number of readers from another one up to `2 ^ 32`. -/
theorem ofNat_eq_iff {m n : ℕ} (hm : m < 2 ^ 32) (hn : n < 2 ^ 32) :
    BitVec.ofNat 32 m = BitVec.ofNat 32 n ↔ m = n := by
  rw [BitVec.toNat_eq, BitVec.toNat_ofNat, BitVec.toNat_ofNat, Nat.mod_eq_of_lt hm,
    Nat.mod_eq_of_lt hn]

theorem add_one_eq_one_iff {n : ℕ} (hn : n < 2 ^ 32) : BitVec.ofNat 32 n + 1 = 1 ↔ n = 0 := by
  rw [← ofNat_eq_iff hn (by decide)]
  constructor
  · intro h
    rw [← BitVec.add_sub_cancel (BitVec.ofNat 32 n) 1, h]
    rfl
  · intro h
    rw [h]
    rfl

theorem sub_one_eq_zero_iff {n : ℕ} (hn : n < 2 ^ 32) :
    BitVec.ofNat 32 (n + 1) - 1 = 0 ↔ n = 0 := by
  rw [ofNat_pred]
  exact ofNat_eq_iff hn (by decide)

/-! ### The locks -/

omit [Fintype T] in
/-- A thread that finds the write lock taken stays where it is. -/
theorem spin_write {x : Point} (hx : l.point t = x) (hlock : l.writeLock = true) :
    { l.goto t x with writeLock := true } = l := by
  obtain ⟨readLock, writeLock, activeReaders, point⟩ := l
  obtain rfl : writeLock = true := hlock
  rw [goto, ← hx, Function.update_eq_self]

omit [Fintype T] in
/-- A thread that finds the read lock taken stays where it is. -/
theorem spin_read {x : Point} (hx : l.point t = x) (hlock : l.readLock = true) :
    { l.goto t x with readLock := true } = l := by
  obtain ⟨readLock, writeLock, activeReaders, point⟩ := l
  obtain rfl : readLock = true := hlock
  rw [goto, ← hx, Function.update_eq_self]

/-- A writer gets the write lock. -/
theorem Census.acquireWrite (h : Census l) {x : Point} (hx : l.point t = x)
    (hentering : x.entering = false) (hfirst : x.first = false) (hsharing : x.sharing = false)
    (howning : x.owning = false) :
    Census { l.goto t (if acquireTestLock l.writeLock then .writing else x) with
      writeLock := true } := by
  obtain hlock | hlock := l.writeLock.eq_false_or_eq_true
  · rw [hlock, acquireTestLock, if_neg (by decide), spin_write hx hlock]
    exact h
  · rw [hlock, acquireTestLock, if_pos (by decide)]
    have e := census_stay (p := Point.entering) (y := .writing) hx hentering
    have f := census_stay (p := Point.first) (y := .writing) hx hfirst
    have s := census_stay (p := Point.sharing) (y := .writing) hx hsharing
    have o := census_join (p := Point.owning) (y := .writing) hx howning rfl
    have hwrite := h.writeLock
    rw [hlock, Bool.toNat_false] at hwrite
    refine ⟨h.readLock.trans e.symm, ?_, ?_, ?_⟩ <;> dsimp only [ReadWriteLock.goto]
    · rw [f, s]
      exact h.activeReaders
    · rw [o, s, Bool.toNat_true]
      omega
    · rw [f, s]
      exact h.first

/-- A writer, or a last reader, gives the write lock back. -/
theorem Census.releaseWrite (h : Census l) {x : Point} (hx : l.point t = x)
    (hentering : x.entering = false) (hfirst : x.first = false) (hsharing : x.sharing = false)
    (howning : x.owning = true) : Census { l.goto t .outside with writeLock := false } := by
  have e := census_stay (p := Point.entering) (y := .outside) hx hentering
  have f := census_stay (p := Point.first) (y := .outside) hx hfirst
  have s := census_stay (p := Point.sharing) (y := .outside) hx hsharing
  have o := census_leave (p := Point.owning) (y := .outside) hx howning rfl
  have hwrite := h.writeLock
  have hle := Bool.toNat_le l.writeLock
  refine ⟨h.readLock.trans e.symm, ?_, ?_, ?_⟩ <;> dsimp only [ReadWriteLock.goto]
  · rw [f, s]
    exact h.activeReaders
  · rw [s, Bool.toNat_false]
    omega
  · rw [f, s]
    exact h.first

/-- A reader gets the read lock. -/
theorem Census.acquireRead (h : Census l) (hx : l.point t = .wantRead) :
    Census { l.goto t (if acquireTestLock l.readLock then .countIn else .wantRead) with
      readLock := true } := by
  obtain hlock | hlock := l.readLock.eq_false_or_eq_true
  · rw [hlock, acquireTestLock, if_neg (by decide), spin_read hx hlock]
    exact h
  · rw [hlock, acquireTestLock, if_pos (by decide)]
    have e := census_join (p := Point.entering) (y := .countIn) hx rfl rfl
    have f := census_stay (p := Point.first) (y := .countIn) hx rfl
    have s := census_stay (p := Point.sharing) (y := .countIn) hx rfl
    have o := census_stay (p := Point.owning) (y := .countIn) hx rfl
    have hread := h.readLock
    rw [hlock] at hread
    refine ⟨?_, ?_, ?_, ?_⟩ <;> dsimp only [ReadWriteLock.goto]
    · rw [e, ← hread]
      rfl
    · rw [f, s]
      exact h.activeReaders
    · rw [o, s]
      exact h.writeLock
    · rw [f, s]
      exact h.first

theorem Point.entering_of_first (p : Point) (h : p.first = true) : p.entering = true := by
  cases p <;> first | rfl | cases h

/-- A reader counts itself in.  It is the first one exactly if nobody is counted, since nobody else
is between the counter and the write lock. -/
theorem Census.countIn (h : Census l) (hcard : Fintype.card T ≤ 2 ^ 32)
    (hx : l.point t = .countIn) :
    Census { l.goto t (if l.activeReaders + 1 = 1 then .firstReader else .exitRead) with
      activeReaders := l.activeReaders + 1 } := by
  have hlt := count_lt_card (l := l) (t := t) (by rw [hx]; rfl) (by rw [hx]; rfl)
  have hfirst : census Point.first l.point = 0 := by
    have hless := census_lt (p := Point.first) (q := Point.entering) (f := l.point) (t := t)
      Point.entering_of_first (by rw [hx]; rfl) (by rw [hx]; rfl)
    rw [← h.readLock] at hless
    have hle := Bool.toNat_le l.readLock
    omega
  rw [h.activeReaders, if_congr (add_one_eq_one_iff (by omega)) rfl rfl, ofNat_succ]
  split
  · next hzero =>
    have e := census_stay (p := Point.entering) (y := .firstReader) hx rfl
    have f := census_join (p := Point.first) (y := .firstReader) hx rfl rfl
    have s := census_stay (p := Point.sharing) (y := .firstReader) hx rfl
    have o := census_stay (p := Point.owning) (y := .firstReader) hx rfl
    refine ⟨h.readLock.trans e.symm, ?_, ?_, ?_⟩ <;> dsimp only [ReadWriteLock.goto]
    · rw [f, s, add_right_comm]
    · rw [o, s]
      exact h.writeLock
    · right
      omega
  · next hpos =>
    have e := census_stay (p := Point.entering) (y := .exitRead) hx rfl
    have f := census_stay (p := Point.first) (y := .exitRead) hx rfl
    have s := census_join (p := Point.sharing) (y := .exitRead) hx rfl rfl
    have o := census_stay (p := Point.owning) (y := .exitRead) hx rfl
    have hwrite := h.writeLock
    refine ⟨h.readLock.trans e.symm, ?_, ?_, ?_⟩ <;> dsimp only [ReadWriteLock.goto]
    · rw [f, s, add_assoc]
    · rw [o, s]
      omega
    · left
      rw [f, hfirst]

/-- The first reader gets the write lock, for all. -/
theorem Census.firstReader (h : Census l) (hx : l.point t = .firstReader) :
    Census { l.goto t (if acquireTestLock l.writeLock then .exitRead else .firstReader) with
      writeLock := true } := by
  obtain hlock | hlock := l.writeLock.eq_false_or_eq_true
  · rw [hlock, acquireTestLock, if_neg (by decide), spin_write hx hlock]
    exact h
  · rw [hlock, acquireTestLock, if_pos (by decide)]
    have e := census_stay (p := Point.entering) (y := .exitRead) hx rfl
    have f := census_leave (p := Point.first) (y := .exitRead) hx rfl rfl
    have s := census_join (p := Point.sharing) (y := .exitRead) hx rfl rfl
    have o := census_stay (p := Point.owning) (y := .exitRead) hx rfl
    have hwrite := h.writeLock
    rw [hlock, Bool.toNat_false] at hwrite
    have hone : census Point.first l.point ≤ 1 := by
      have hle := census_le (f := l.point) Point.entering_of_first
      rw [← h.readLock] at hle
      exact hle.trans (Bool.toNat_le _)
    refine ⟨h.readLock.trans e.symm, ?_, ?_, ?_⟩ <;> dsimp only [ReadWriteLock.goto]
    · rw [h.activeReaders, ← f, s, add_right_comm, add_assoc]
    · rw [o, s, Bool.toNat_true]
      omega
    · left
      omega

/-- A reader leaves the read lock and is inside. -/
theorem Census.exitRead (h : Census l) (hx : l.point t = .exitRead) :
    Census { l.goto t .reading with readLock := false } := by
  have e := census_leave (p := Point.entering) (y := .reading) hx rfl rfl
  have f := census_stay (p := Point.first) (y := .reading) hx rfl
  have s := census_stay (p := Point.sharing) (y := .reading) hx rfl
  have o := census_stay (p := Point.owning) (y := .reading) hx rfl
  have hread := h.readLock
  have hle := Bool.toNat_le l.readLock
  refine ⟨?_, ?_, ?_, ?_⟩ <;> dsimp only [ReadWriteLock.goto]
  · rw [Bool.toNat_false]
    omega
  · rw [f, s]
    exact h.activeReaders
  · rw [o, s]
    exact h.writeLock
  · rw [f, s]
    exact h.first

/-- A reader counts itself out.  It is the last one exactly if nobody else is counted, and then
nobody else is inside. -/
theorem Census.reading (h : Census l) (hcard : Fintype.card T ≤ 2 ^ 32)
    (hx : l.point t = .reading) :
    Census { l.goto t (if l.activeReaders - 1 = 0 then .lastReader else .outside) with
      activeReaders := l.activeReaders - 1 } := by
  have hle := count_le_card l
  have hpos := one_le_census (p := Point.sharing) (f := l.point) (t := t) (by rw [hx]; rfl)
  have hfirst : census Point.first l.point = 0 := h.first.resolve_right (by omega)
  obtain ⟨n, hn⟩ := Nat.exists_eq_add_of_le' hpos
  have hwrite := h.writeLock
  rw [h.activeReaders, hfirst, hn, zero_add, if_congr (sub_one_eq_zero_iff (by omega)) rfl rfl,
    ofNat_pred]
  split
  · next hzero =>
    have e := census_stay (p := Point.entering) (y := .lastReader) hx rfl
    have f := census_stay (p := Point.first) (y := .lastReader) hx rfl
    have s := census_leave (p := Point.sharing) (y := .lastReader) hx rfl rfl
    have o := census_join (p := Point.owning) (y := .lastReader) hx rfl rfl
    have hs : census Point.sharing (Function.update l.point t .lastReader) = 0 := by omega
    refine ⟨h.readLock.trans e.symm, ?_, ?_, .inr hs⟩ <;> dsimp only [ReadWriteLock.goto]
    · rw [f, hfirst, hs, hzero]
    · rw [o, hs]
      omega
  · next hmore =>
    have e := census_stay (p := Point.entering) (y := .outside) hx rfl
    have f := census_stay (p := Point.first) (y := .outside) hx rfl
    have s := census_leave (p := Point.sharing) (y := .outside) hx rfl rfl
    have o := census_stay (p := Point.owning) (y := .outside) hx rfl
    have hs : census Point.sharing (Function.update l.point t .outside) = n := by omega
    refine ⟨h.readLock.trans e.symm, ?_, ?_, .inl (f.trans hfirst)⟩ <;>
      dsimp only [ReadWriteLock.goto]
    · rw [f, hfirst, hs, zero_add]
    · rw [o, hs]
      omega

/-- **One step.** -/
theorem Census.step (h : Census l) (hcard : Fintype.card T ≤ 2 ^ 32) (t : T) (call : Call) :
    Census (l.step t call) := by
  unfold ReadWriteLock.step
  cases hx : l.point t with
  | outside =>
    cases call with
    | acquireRead => exact h.goto hx rfl rfl rfl rfl
    | acquireWrite => exact h.goto hx rfl rfl rfl rfl
    | tryAcquireWrite => exact h.acquireWrite hx rfl rfl rfl rfl
  | wantRead => exact h.acquireRead hx
  | countIn => exact h.countIn hcard hx
  | firstReader => exact h.firstReader hx
  | exitRead => exact h.exitRead hx
  | reading => exact h.reading hcard hx
  | lastReader => exact h.releaseWrite hx rfl rfl rfl rfl
  | wantWrite => exact h.acquireWrite hx rfl rfl rfl rfl
  | writing => exact h.releaseWrite hx rfl rfl rfl rfl

/-- **Any steps.** -/
theorem Census.run (h : Census l) (hcard : Fintype.card T ≤ 2 ^ 32) (steps : List (T × Call)) :
    Census (l.run steps) := by
  induction steps generalizing l with
  | nil => exact h
  | cons p steps ih => exact ih (h.step hcard p.1 p.2)

/-! ## Exclusion -/

/-- **What the lock is for.**  A reader is inside from the moment that the write lock is held for it
to the end of its `release_read`. -/
structure Excludes (l : ReadWriteLock T) : Prop where
  writers : ∀ t u, l.point t = .writing → l.point u = .writing → t = u
  readers : ∀ t u, (l.point t).reader = true → l.point u ≠ .writing
  free : (∀ t, l.point t = .outside) →
    l.readLock = false ∧ l.writeLock = false ∧ l.activeReaders = 0

theorem Point.sharing_or_last {p : Point} (h : p.reader = true) :
    p.sharing = true ∨ p = .lastReader := by
  cases p <;> first | exact .inl rfl | exact .inr rfl | cases h

theorem Census.excludes (h : Census l) : Excludes l := by
  have hwrite := h.writeLock
  have hle := Bool.toNat_le l.writeLock
  refine ⟨fun t u ht hu ↦ ?_, fun t u ht hu ↦ ?_, fun hout ↦ ?_⟩
  · by_contra hne
    have htwo := two_le_census (p := Point.owning) (f := l.point) hne
      (by rw [ht]; rfl) (by rw [hu]; rfl)
    omega
  · obtain hsharing | hlast := Point.sharing_or_last ht
    · have hs := one_le_census (p := Point.sharing) (f := l.point) hsharing
      have ho := one_le_census (p := Point.owning) (f := l.point) (t := u) (by rw [hu]; rfl)
      omega
    · have hne : t ≠ u := fun heq ↦ Point.noConfusion ((hlast.symm.trans (heq ▸ rfl)).trans hu)
      have htwo := two_le_census (p := Point.owning) (f := l.point) hne
        (by rw [hlast]; rfl) (by rw [hu]; rfl)
      omega
  · have hzero : ∀ p : Point → Bool, p .outside = false → census p l.point = 0 :=
      fun p hp ↦ census_eq_zero fun t ↦ by rw [hout t, hp]
    have hread := h.readLock
    rw [hzero Point.entering rfl] at hread
    rw [hzero Point.owning rfl, hzero Point.sharing rfl] at hwrite
    refine ⟨Bool.toNat_eq_zero.mp hread, Bool.toNat_eq_zero.mp hwrite, ?_⟩
    rw [h.activeReaders, hzero Point.first rfl, hzero Point.sharing rfl]
    rfl

/-- **Readers and writers are kept apart**, at any time, whatever up to `2 ^ 32` threads do and in
whatever order. -/
theorem exclusion (hcard : Fintype.card T ≤ 2 ^ 32) (steps : List (T × Call)) :
    Excludes ((initial T).run steps) :=
  (census_initial.run hcard steps).excludes

/-- A reader and a writer. -/
theorem exclusion_two : Excludes ((initial (Fin 2)).run
    [(0, .acquireRead), (1, .tryAcquireWrite), (0, .acquireRead), (0, .acquireRead)]) :=
  exclusion (by decide) _

/-! ## More readers than the counter can count -/

/-- These threads are reading, and the others are outside. -/
structure Crowd (s : Finset T) (l : ReadWriteLock T) : Prop where
  readLock : l.readLock = false
  activeReaders : l.activeReaders = BitVec.ofNat 32 s.card
  point : ∀ t, l.point t = if t ∈ s then .reading else .outside

omit [Fintype T] in
/-- The first reader goes in. -/
theorem run_first (t : T) : (initial T).run (List.replicate 5 (t, .acquireRead)) =
    ⟨false, true, 1, Function.update (initial T).point t .reading⟩ := by
  simp [run, step, goto, initial, acquireTestLock]

omit [Fintype T] in
/-- Another reader goes in. -/
theorem run_enter (ht : l.point t = .outside) (hlock : l.readLock = false)
    (hactive : l.activeReaders ≠ 0#32) : l.run (List.replicate 4 (t, .acquireRead)) =
      ⟨false, l.writeLock, l.activeReaders + 1, Function.update l.point t .reading⟩ := by
  simp [run, step, goto, ht, hlock, hactive, acquireTestLock]

omit [Fintype T] in
/-- A reader that takes the counter from zero waits for the write lock, and then the next one to
leave gives the lock away and gets it back as a writer. -/
theorem run_overflow {u : T} (htu : u ≠ t) (ht : l.point t = .outside) (hu : l.point u = .reading)
    (hlock : l.readLock = false) (hactive : l.activeReaders = 0) :
    l.run (List.replicate 3 (t, .acquireRead) ++ List.replicate 4 (u, .acquireWrite)) =
      ⟨true, true, 0, Function.update (Function.update l.point t .firstReader) u .writing⟩ := by
  simp [run, step, goto, ht, hu, hlock, hactive, htu, acquireTestLock]

omit [Fintype T] in
theorem crowd {s : Finset T} (hs : s.Nonempty) (hcard : s.card ≤ 2 ^ 32) :
    ∃ steps, Crowd s ((initial T).run steps) := by
  induction hs using Finset.Nonempty.cons_induction with
  | singleton t =>
    refine ⟨List.replicate 5 (t, .acquireRead), ?_⟩
    rw [run_first]
    refine ⟨rfl, rfl, fun u ↦ ?_⟩
    dsimp only
    rw [Function.update_apply]
    exact if_congr Finset.mem_singleton.symm rfl rfl
  | cons t s ht hs ih =>
    rw [Finset.card_cons] at hcard
    obtain ⟨steps, hread, hactive, hpoint⟩ := ih (by omega)
    have hpos := hs.card_pos
    have hmore : ((initial T).run steps).activeReaders ≠ 0 := by
      rw [hactive]
      exact fun h ↦ hpos.ne' ((ofNat_eq_iff (by omega) (by decide)).mp h)
    have hout : ((initial T).run steps).point t = .outside := by rw [hpoint, if_neg ht]
    refine ⟨steps ++ List.replicate 4 (t, .acquireRead), ?_⟩
    rw [run_append, run_enter hout hread hmore]
    refine ⟨rfl, ?_, fun u ↦ ?_⟩
    · rw [Finset.card_cons, hactive, ofNat_succ]
    · dsimp only
      rw [Function.update_apply, hpoint]
      simp only [Finset.mem_cons]
      split_ifs <;> simp_all

/-- **With more threads than the counter can count, a writer gets in among the readers**: all but
one read, the last one takes the counter through zero to one, and the next reader that leaves gives
the write lock away. -/
theorem overflow {t u v : T} (hut : u ≠ t) (hvt : v ≠ t) (huv : u ≠ v)
    (hcard : Fintype.card T = 2 ^ 32 + 1) : ∃ steps, ¬ Excludes ((initial T).run steps) := by
  have herase : (Finset.univ.erase t).card = 2 ^ 32 := by
    rw [Finset.card_erase_of_mem (Finset.mem_univ t), Finset.card_univ, hcard]
    rfl
  obtain ⟨steps, hread, hactive, hpoint⟩ := crowd
    ⟨u, Finset.mem_erase.mpr ⟨hut, Finset.mem_univ u⟩⟩ herase.le
  rw [herase] at hactive
  have ht : ((initial T).run steps).point t = .outside := by
    rw [hpoint, if_neg (Finset.notMem_erase t _)]
  have hin : ∀ w, w ≠ t → ((initial T).run steps).point w = .reading := fun w hw ↦ by
    rw [hpoint, if_pos (Finset.mem_erase.mpr ⟨hw, Finset.mem_univ w⟩)]
  refine ⟨steps ++ (List.replicate 3 (t, .acquireRead) ++ List.replicate 4 (u, .acquireWrite)),
    fun h ↦ h.readers v u ?_ ?_⟩
  all_goals
    rw [run_append, run_overflow hut ht (hin u hut) hread hactive]
    dsimp only
  · rw [Function.update_of_ne huv.symm, Function.update_of_ne hvt, hin v hvt]
    rfl
  · rw [Function.update_self]

/-- The first number of threads that is too large. -/
theorem overflow_fin : ∃ steps, ¬ Excludes ((initial (Fin (2 ^ 32 + 1))).run steps) :=
  overflow (t := 0) (u := 1) (v := 2) (by decide) (by decide) (by decide) (Fintype.card_fin _)

end ReadWriteLock

end Borrrdex
