import Borrrdex.Sched.SleepQueue

/-!
# Spinning for milliseconds

`timer::wait` spins until a reading of the clock is more than `ms` ahead of what it was.  The
reading has the ticks of the second as `ticks * frequency / 1000` milliseconds, which is `ticks *
1000 / frequency` at a thousand hertz only.

`waitsEnough_iff` says at which frequencies the reading does not decrease and the wait is as long as
it should be.  The reading is an `int64` that does not overflow; an evaluation of it is not
interrupted.
-/

set_option autoImplicit false

namespace Borrrdex

namespace Timer

/-- `uptime * 1000 + (ticks * frequency / 1000)`. -/
def reading (t : Timer) : ℤ := t.uptime * 1000 + (t.ticks * t.frequency).tdiv 1000

/-- The difference of two readings, which is unsigned. -/
def elapsed (start now : ℤ) : U64 := BitVec.ofInt 64 now - BitVec.ofInt 64 start

/-- The loop of `wait`.  The list says how many interrupts come before each evaluation of its
condition; the result is how many have come when it returns. -/
def waitLoop (start ms : ℤ) : List ℕ → Timer → Option ℕ
  | [], _ => none
  | n :: ns, t =>
    let t := clock^[n] t
    if elapsed start t.reading ≤ BitVec.ofInt 64 ms then (waitLoop start ms ns t).map (n + ·)
    else some n

/-- `wait`. -/
def wait (ms : ℤ) (ns : List ℕ) (t : Timer) : Option ℕ := waitLoop t.reading ms ns t

/-- A clock in the middle of a second. -/
structure Running (f : ℤ) (t : Timer) : Prop where
  frequency : t.frequency = f
  nonneg : 0 ≤ t.ticks
  lt : t.ticks < f

/-- **`wait` waits long enough** at a frequency: the reading does not decrease at an interrupt, and
it returns only after more than `ms * f / 1000 - 1` interrupts. -/
structure WaitsEnough (f : ℤ) : Prop where
  mono : ∀ t, Running f t → t.reading ≤ t.clock.reading
  enough : ∀ t, Running f t → ∀ ms, 1 ≤ ms → ms < 2 ^ 63 → ∀ ns n, t.wait ms ns = some n →
    ms * f < (n + 1) * 1000

variable {f ms : ℤ} {t : Timer}

/-! ## The clock -/

theorem Running.clock (h : Running f t) : Running f t.clock ∧
    t.clock.uptime * f + t.clock.ticks = t.uptime * f + t.ticks + 1 := by
  obtain ⟨rfl, hnonneg, hlt⟩ := h
  rw [Timer.clock]
  split
  · next hfull =>
    refine ⟨⟨rfl, sub_nonneg.mpr hfull, ?_⟩, ?_⟩
    · dsimp only
      omega
    · dsimp only
      ring
  · next hfull =>
    refine ⟨⟨rfl, ?_, not_le.mp hfull⟩, ?_⟩
    · dsimp only
      omega
    · dsimp only
      ring

theorem Running.iterate (h : Running f t) (n : ℕ) : Running f (Timer.clock^[n] t) ∧
    (Timer.clock^[n] t).uptime * f + (Timer.clock^[n] t).ticks = t.uptime * f + t.ticks + n := by
  induction n generalizing t with
  | zero => simpa using h
  | succ n ih =>
    obtain ⟨hclock, heq⟩ := h.clock
    obtain ⟨hiter, heq'⟩ := ih hclock
    rw [Function.iterate_succ_apply]
    refine ⟨hiter, heq'.trans ?_⟩
    rw [heq]
    push_cast
    ring

theorem toNat_elapsed (start now : ℤ) : ((elapsed start now).toNat : ℤ) =
    (now - start) % 2 ^ 64 := by
  rw [elapsed, BitVec.toNat_sub, BitVec.toNat_ofInt, BitVec.toNat_ofInt]
  push_cast
  omega

/-- The loop goes on until the reading is more than `ms` ahead. -/
theorem elapsed_le_iff {start now : ℤ} (hms : 0 ≤ ms) (hlt : ms < 2 ^ 63) :
    elapsed start now ≤ BitVec.ofInt 64 ms ↔ (now - start) % 2 ^ 64 ≤ ms := by
  have hofInt : ((BitVec.ofInt 64 ms).toNat : ℤ) = ms := by
    rw [BitVec.toNat_ofInt]
    omega
  rw [BitVec.le_def, ← Int.ofNat_le, toNat_elapsed, hofInt]

/-- It returns at an evaluation at which it is. -/
theorem exists_of_waitLoop {start : ℤ} {ns : List ℕ} {n : ℕ} (hms : 0 ≤ ms) (hlt : ms < 2 ^ 63)
    (h : waitLoop start ms ns t = some n) :
    ms < ((clock^[n] t).reading - start) % 2 ^ 64 := by
  induction ns generalizing t n with
  | nil => cases h
  | cons k ns ih =>
    rw [waitLoop] at h
    split at h
    · obtain ⟨m, hm, rfl⟩ := Option.map_eq_some_iff.mp h
      rw [Nat.add_comm, Function.iterate_add_apply]
      exact ih hm
    · next hmore =>
      obtain rfl := Option.some.inj h
      exact not_le.mp ((elapsed_le_iff hms hlt).not.mp hmore)

/-! ## The frequencies -/

/-- The reading, from the seconds and the ticks. -/
theorem Running.reading_eq (h : Running f t) :
    t.reading = t.uptime * 1000 + t.ticks * f / 1000 := by
  obtain ⟨rfl, hnonneg, hlt⟩ := h
  rw [reading, Int.tdiv_eq_ediv_of_nonneg (mul_nonneg hnonneg (by omega))]

/-- What is to be shown of a frequency: how far the reading gets in `n` interrupts. -/
theorem waitsEnough_of (hrate : ∀ u x u' x' n d : ℤ, 0 ≤ x → x < f → 0 ≤ x' → x' < f → 0 ≤ n →
    u' * f + x' = u * f + x + n → d = (u' * 1000 + x' * f / 1000) - (u * 1000 + x * f / 1000) →
      0 ≤ d ∧ (d - 1) * f < (n + 1) * 1000) : WaitsEnough f where
  mono t h := by
    obtain ⟨hclock, heq⟩ := h.clock
    obtain ⟨hd, -⟩ := hrate _ _ _ _ 1 _ h.nonneg h.lt hclock.nonneg hclock.lt zero_le_one heq rfl
    rw [h.reading_eq, hclock.reading_eq]
    exact sub_nonneg.mp hd
  enough t h ms hms hlt ns n hwait := by
    obtain ⟨hiter, heq⟩ := h.iterate n
    obtain ⟨hd, hle⟩ :=
      hrate _ _ _ _ n _ h.nonneg h.lt hiter.nonneg hiter.lt (Int.natCast_nonneg n) heq rfl
    rw [← h.reading_eq, ← hiter.reading_eq] at hd hle
    have hmore := exists_of_waitLoop (by omega) hlt hwait
    have hms' : ms ≤ (clock^[n] t).reading - t.reading - 1 := by omega
    have hf : 0 ≤ f := h.nonneg.trans h.lt.le
    exact (mul_le_mul_of_nonneg_right hms' hf).trans_lt hle

/-- At these frequencies the reading is near the time. -/
theorem waitsEnough (h : f = 1 ∨ f = 2 ∨ f = 999 ∨ f = 1000) : WaitsEnough f := by
  refine waitsEnough_of fun u x u' x' n d hx hxf hx' hxf' hn heq hd ↦ ?_
  rcases h with rfl | rfl | rfl | rfl
  · omega
  · omega
  · -- a millisecond is lost at the first tick of the second
    have hloss : ∀ y : ℤ, 0 ≤ y → y < 999 → y * 999 / 1000 = max (y - 1) 0 := by
      intro y hy hlt
      omega
    rw [hloss x hx hxf, hloss x' hx' hxf'] at hd
    omega
  · omega

/-- A clock just before the full second. -/
def beforeSecond (f : ℤ) : Timer := ⟨f, f - 1, 0, 0, [], 0⟩

theorem running_beforeSecond (hf : 1 ≤ f) : Running f (beforeSecond f) :=
  ⟨rfl, by simpa [beforeSecond] using hf, by simp [beforeSecond]⟩

theorem reading_beforeSecond (hf : 1 ≤ f) : (beforeSecond f).reading = (f - 1) * f / 1000 := by
  rw [(running_beforeSecond hf).reading_eq]
  simp [beforeSecond]

theorem reading_clock_beforeSecond (f : ℤ) : (beforeSecond f).clock.reading = 1000 := by
  simp [beforeSecond, clock, reading]

/-- The interrupt moves the reading to a thousand, and the wait ends. -/
theorem wait_beforeSecond (hf : 1 ≤ f) (hms : 1 ≤ ms) (hlt : ms < 1000 - (f - 1) * f / 1000) :
    (beforeSecond f).wait ms [1] = some 1 := by
  have hnonneg : 0 ≤ (f - 1) * f / 1000 :=
    Int.ediv_nonneg (mul_nonneg (by omega) (by omega)) (by omega)
  rw [wait, waitLoop, if_neg]
  rw [elapsed_le_iff (by omega) (by omega), Function.iterate_one, reading_clock_beforeSecond,
    reading_beforeSecond hf]
  omega

/-- The reading goes back. -/
theorem reading_back (hf : 1001 ≤ f) : ¬ WaitsEnough f := by
  intro h
  have hle := h.mono _ (running_beforeSecond (by omega : 1 ≤ f))
  rw [reading_beforeSecond (by omega), reading_clock_beforeSecond] at hle
  have hprod : 1000 * 1001 ≤ (f - 1) * f :=
    mul_le_mul (by omega) hf (by omega) (by omega)
  omega

/-- The wait is too short. -/
theorem wait_short (hf : 3 ≤ f) (hlt : f ≤ 998) : ¬ WaitsEnough f := by
  intro h
  set ms := 999 - (f - 1) * f / 1000 with hms
  have hq : (f - 1) * f / 1000 * 1000 ≤ (f - 1) * f := Int.ediv_mul_le _ (by decide)
  have hmore : 2000 ≤ ms * f := by
    have hchord : 0 ≤ (f - 3) * (998 - f) := mul_nonneg (by omega) (by omega)
    nlinarith
  have hpos : 1 ≤ ms := by nlinarith
  have hwait := wait_beforeSecond (by omega : 1 ≤ f) hpos (by omega)
  have hnonneg : 0 ≤ (f - 1) * f / 1000 :=
    Int.ediv_nonneg (mul_nonneg (by omega) (by omega)) (by omega)
  have hfew := h.enough _ (running_beforeSecond (by omega)) ms hpos (by omega) [1] 1 hwait
  push_cast at hfew
  omega

/-- **The frequencies at which `wait` waits long enough.** -/
theorem waitsEnough_iff (hf : 1 ≤ f) :
    WaitsEnough f ↔ f = 1 ∨ f = 2 ∨ f = 999 ∨ f = 1000 := by
  refine ⟨fun h ↦ ?_, waitsEnough⟩
  by_contra hnot
  rcases le_or_gt f 998 with hle | hgt
  · exact wait_short (by omega) hle h
  · exact reading_back (by omega) h

/-- At a thousand hertz it does. -/
theorem waitsEnough_thousand : WaitsEnough 1000 :=
  (waitsEnough_iff (by decide)).mpr (by decide)

/-- At a hundred hertz, half a second is over at the next full second; and at the frequency that the
kernel sets, the reading goes back there. -/
theorem not_waitsEnough_hundred : ¬ WaitsEnough 100 ∧ ¬ WaitsEnough 1600 :=
  ⟨wait_short (by decide) (by decide), reading_back (by decide)⟩

end Timer

end Borrrdex
