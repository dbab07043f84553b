import Borrrdex.Devices.Pty

/-!
# Reading from a pseudoterminal

`worker_read` has two loops that block, one for each mode, and then reads what is there.  The loops
test for input where they should test for none: a reader blocks while there is something to read and
goes on while there is nothing.  The writer's wake-up and `can_read` have the test as it should be.

`readsRight_iff` says when a call does what it should all the same, and `released_iff` when a
blocked reader gets on that a write has woken.
-/

set_option autoImplicit false

namespace Borrrdex

open CharBuffer

namespace CharBuffer

variable {c : CharBuffer} {n : U64}

/-- `read` does not come back from a request for more than the block began with. -/
theorem read_eq_none (dst : ℕ → Byte) (h : 1024 < (c.available n).toNat) : c.read dst n = none := by
  rw [read]
  generalize c.available n = m at *
  have hne : m ≠ 0 := fun hzero ↦ by
    rw [hzero] at h
    exact absurd h (by decide)
  simp only [if_neg hne, Option.bind_eq_bind]
  have hloop {σ : Type} (k : ℕ) (hk : 2 ^ 32 ≤ k) (step : U32 → σ → σ) (s : σ) :
      forBelow k (fun i s ↦ .inr (step i s)) 0 s = none :=
    forBelow_eq_none hk (fun _ ↦ True) trivial fun _ _ _ ↦ ⟨_, rfl, trivial⟩
  obtain hmany | hfew := le_or_gt (2 ^ 32) m.toNat
  · rw [hloop m.toNat hmany]
    rfl
  · have hbig : 2 ^ 32 ≤ (size - m).toNat := by
      have hsize : size.toNat = 1024 := rfl
      bv_omega
    obtain ⟨j, s, hget, -⟩ := forBelow_go (w := 32)
      (s := (⟨c, dst, []⟩ : ReadState)) hfew ReadState.get
      (fun _ _ ↦ True) trivial fun _ _ _ _ ↦ trivial
    rw [hget, Option.bind_some, hloop _ hbig]
    rfl

end CharBuffer

namespace Pty

/-- The loops of `worker_read`. -/
inductive ReaderPc
  | lines
  | data
deriving DecidableEq

/-- What comes of a call, or of a reader that has been woken. -/
inductive Outcome
  | blocks (pc : ReaderPc)
  | returns (count : U64) (dst : ℕ → Byte) (p : Pty)

/-- The end of `worker_read`. -/
def readWorker (dst : ℕ → Byte) (n : U64) (p : Pty) : Option Outcome :=
  (p.worker.read dst n).map fun (m, s) ↦ .returns m s.dst { p with worker := s.buffer }

/-- `pty::worker_read`, from a loop on: until it blocks in one, or reads. -/
def workerRead (dst : ℕ → Byte) (n : U64) (p : Pty) : ReaderPc → Option Outcome
  | .lines =>
    if p.isCanonical && p.worker.hasLines then some (.blocks .lines)
    else if !p.isCanonical && p.worker.hasData then some (.blocks .data)
    else p.readWorker dst n
  | .data =>
    if !p.isCanonical && p.worker.hasData then some (.blocks .data)
    else p.readWorker dst n

/-- The caller gets some bytes. -/
def Outcome.Data : Outcome → Prop
  | .blocks _ => False
  | .returns count _ _ => count ≠ 0

/-- A call does not block when input is ready, and does not return data when none is. -/
structure ReadsRight (n : U64) (p : Pty) : Prop where
  ready : p.canRead .worker = true → ∀ dst pc, p.workerRead dst n .lines ≠ some (.blocks pc)
  notReady : p.canRead .worker = false → ∀ dst, ∀ outcome ∈ p.workerRead dst n .lines,
    ¬ outcome.Data

/-- A reader that has been blocked in a loop is woken, and does not block again. -/
def Released (me : ℕ) (pc : ReaderPc) (n : U64) (p : Pty) : Prop :=
  me ∈ p.released ∧ ∀ dst pc', p.workerRead dst n pc ≠ some (.blocks pc')

variable {p : Pty} {n : U64} {dst : ℕ → Byte} {pc : ReaderPc}

/-- A call blocks just if input is ready. -/
theorem workerRead_lines :
    p.workerRead dst n .lines =
      if p.canRead .worker then some (.blocks (if p.isCanonical then .lines else .data))
      else p.readWorker dst n := by
  rw [workerRead, canRead]
  cases p.isCanonical <;> cases p.worker.hasLines <;> cases p.worker.hasData <;> rfl

theorem workerRead_data :
    p.workerRead dst n .data =
      if p.canRead .worker ∧ p.isCanonical = false then some (.blocks .data)
      else p.readWorker dst n := by
  rw [workerRead, canRead]
  cases p.isCanonical <;> simp

/-- The end of a call does not block. -/
theorem readWorker_ne_blocks : p.readWorker dst n ≠ some (.blocks pc) := by
  rw [readWorker]
  cases p.worker.read dst n <;> simp

/-- It returns what is available, or does not return. -/
theorem readWorker_data :
    (∃ outcome ∈ p.readWorker dst n, outcome.Data) ↔
      p.worker.available n ≠ 0 ∧ (p.worker.available n).toNat ≤ 1024 := by
  obtain hle | hlt := le_or_gt (p.worker.available n).toNat 1024
  · obtain ⟨s, hs, -⟩ := read_takes dst n hle
    simp [readWorker, hs, Outcome.Data, hle]
  · simp [readWorker, read_eq_none dst hlt, hlt]

/-- **A call of `worker_read` does what it should** just if neither input is ready nor anything
waits that it could return. -/
theorem readsRight_iff (p : Pty) (n : U64) :
    p.ReadsRight n ↔ p.canRead .worker = false ∧
      (p.worker.available n = 0 ∨ 1024 < (p.worker.available n).toNat) := by
  cases hready : p.canRead .worker with
  | true =>
    refine iff_of_false (fun h ↦ ?_) (by simp)
    have hblocks := h.ready hready (fun _ ↦ nul) (if p.isCanonical then .lines else .data)
    rw [workerRead_lines, if_pos hready] at hblocks
    exact hblocks rfl
  | false =>
    have hread (dst : ℕ → Byte) : p.workerRead dst n .lines = p.readWorker dst n := by
      rw [workerRead_lines, if_neg (by simp [hready])]
    have hnone : (p.worker.available n = 0 ∨ 1024 < (p.worker.available n).toNat) ↔
        ¬ (p.worker.available n ≠ 0 ∧ (p.worker.available n).toNat ≤ 1024) := by
      rw [not_and_or, not_not, not_le]
    rw [hnone]
    constructor
    · intro h
      refine ⟨rfl, fun hsome ↦ ?_⟩
      obtain ⟨outcome, hmem, hdata⟩ := readWorker_data.mpr hsome
      exact h.notReady hready (fun _ ↦ nul) outcome (hread _ ▸ hmem) hdata
    · rintro ⟨-, hnot⟩
      refine ⟨fun hyes ↦ absurd (hready.symm.trans hyes) (by decide),
        fun _ dst outcome hmem hdata ↦ ?_⟩
      exact hnot (readWorker_data.mp ⟨outcome, hread dst ▸ hmem, hdata⟩)

/-! ## The wake-up -/

theorem unblockAll_ready (blocked released : List ℕ) :
    unblockAll true blocked released = ([], released ++ blocked) := by
  induction blocked generalizing released with
  | nil => simp [unblockAll]
  | cons blocker blocked ih => rw [unblockAll, if_pos rfl, ih, List.append_assoc,
      List.singleton_append]

theorem canRead_eq_workerReady (p : Pty) : p.canRead .worker = p.workerReady := rfl

theorem canRead_congr {q : Pty} (hlflag : p.lflag = q.lflag) (hworker : p.worker = q.worker) :
    p.canRead .worker = q.canRead .worker := by
  rw [canRead, canRead, isCanonical, isCanonical, hlflag, hworker]

/-- A write that leaves input has woken every reader that was blocked. -/
theorem released_of_controllerWrite {b behind : ℕ → Byte} {m : U64} {r : Written}
    (hr : p.controllerWrite b behind m = some r) (hready : r.pty.canRead .worker = true) :
    r.pty.lflag = p.lflag ∧ ∀ me ∈ p.workerBlocked, me ∈ r.pty.released := by
  obtain ⟨s, e, -, -, -, -, -, hworker, -, hlflag, hreleased⟩ := controllerWrite_eq_some hr
  refine ⟨hlflag, fun me hme ↦ ?_⟩
  have hwoken : ({ p with worker := s.buffer } : Pty).workerReady = true := by
    rw [← canRead_eq_workerReady, ← hready]
    exact canRead_congr hlflag.symm hworker.symm
  have hpos : 0 < p.workerBlocked.length := List.length_pos_of_mem hme
  rw [hreleased, unblockWorker, if_pos hpos, hwoken]
  simp only [unblockAll_ready, List.mem_append]
  exact .inr hme

/-- **A reader that a write has woken gets on** just if it was blocked for want of the
other mode. -/
theorem released_iff {b behind : ℕ → Byte} {m : U64} {r : Written} {me : ℕ}
    (hme : me ∈ p.workerBlocked)
    (hr : p.controllerWrite b behind m = some r) (hready : r.pty.canRead .worker = true) :
    Released me pc n r.pty ↔ pc = .data ∧ p.isCanonical = true := by
  obtain ⟨hlflag, hreleased⟩ := released_of_controllerWrite hr hready
  have hcanonical : r.pty.isCanonical = p.isCanonical := by rw [isCanonical, isCanonical, hlflag]
  rw [Released, and_iff_right (hreleased me hme)]
  cases pc with
  | lines => simp [workerRead_lines, hready]
  | data =>
    simp only [workerRead_data, hready, hcanonical, true_and]
    cases p.isCanonical with
    | true => simpa using fun dst pc' ↦ readWorker_ne_blocks
    | false => simp

/-- **When reads of a terminal are right.**  A call is just if there is neither input nor anything
else to return; and a reader that blocks is released by a write that makes input ready just if it
waits in the loop of the other mode. -/
theorem reads_right_iff (p : Pty) (n : U64) :
    (p.ReadsRight n ↔ p.canRead .worker = false ∧
      (p.worker.available n = 0 ∨ 1024 < (p.worker.available n).toNat)) ∧
    ∀ me ∈ p.workerBlocked, ∀ pc b behind m r, p.controllerWrite b behind m = some r →
      p.canRead .worker = false → r.pty.canRead .worker = true →
      (Released me pc n r.pty ↔ pc = .data ∧ p.isCanonical = true) :=
  ⟨readsRight_iff p n, fun _ hme _ _ _ _ _ hr _ hready ↦ released_iff hme hr hready⟩

/-- An empty terminal in canonical mode, without echo, with a reader. -/
def watched : Pty := { flushed with lflag := icanonFlag, workerBlocked := [7] }

theorem reads_right_watched : watched.ReadsRight 80 ∧
    ∃ r, watched.controllerWrite (fun _ ↦ newline) (fun _ ↦ nul) 1 = some r ∧
      Released 7 .data 80 r.pty ∧ ¬ Released 7 .lines 80 r.pty := by
  obtain ⟨hcall, hwake⟩ := reads_right_iff watched 80
  obtain ⟨r, hr, hready⟩ : ∃ r, watched.controllerWrite (fun _ ↦ newline) (fun _ ↦ nul) 1 = some r ∧
      r.pty.canRead .worker = true := ⟨_, rfl, by decide⟩
  have hmem : 7 ∈ watched.workerBlocked := List.mem_singleton_self 7
  refine ⟨hcall.mpr ⟨by decide, .inl (by decide)⟩, r, hr, ?_, ?_⟩
  · exact (hwake 7 hmem .data _ _ 1 r hr (by decide) hready).mpr ⟨rfl, by decide⟩
  · rw [hwake 7 hmem .lines _ _ 1 r hr (by decide) hready]
    exact fun h ↦ absurd h.1 (by decide)

/-- A terminal with a line in it. -/
def withLine : Pty := { flushed with worker := ⟨1, 1, false, fun _ ↦ newline, 1024⟩ }

/-- A reader blocks although there is a line to read. -/
theorem not_readsRight_withLine : ¬ withLine.ReadsRight 80 := by
  rw [readsRight_iff]
  exact fun h ↦ absurd h.1 (by decide)

end Pty

end Borrrdex
