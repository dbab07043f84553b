import Borrrdex.Sched.Gc

/-!
# Removing the threads of a process

`remove_threads` walks the run queue and takes a thread out one step behind its cursor: the thread
that is to go is remembered, and unlinked and deleted once the cursor has moved on, or behind the
loop if there was nothing to move on to.  `removeThreads` of `Sched.Gc` is what this comes to
(`runRemoveThreads_eq`).

An iterator is the thread it stands on.  A thread has one hook, so that it is in the queue at most
once; erasing it links its neighbours, so that other iterators go on as before.
-/

set_option autoImplicit false

namespace Borrrdex

namespace Gc

variable {ρ : Type}

/-- A CPU, and the threads that have been deleted. -/
structure Removal (ρ : Type) where
  cpu : Cpu ρ
  deleted : List ℕ

/-- `if(to_remove != c->run_queue.end()) { .. }`, in the loop and behind it. -/
def Removal.eraseRemoved (toRemove : Option ℕ) (s : Removal ρ) : Removal ρ :=
  match toRemove with
  | none => s
  | some t =>
    { cpu :=
        { s.cpu with
          runQueue := s.cpu.runQueue.erase t
          runQueueCount := s.cpu.runQueueCount - 1 }
      deleted := s.deleted ++ [t] }

/-- The loop of `remove_threads`, with so many tests of its condition. -/
def removeLoop (proc : ℕ) :
    ℕ → Option ℕ → Option ℕ → Removal ρ → Option (Option ℕ × Removal ρ)
  | 0, _, _, _ => none
  | _ + 1, none, toRemove, s => some (toRemove, s)
  | tests + 1, some current, toRemove, s =>
    let s := s.eraseRemoved toRemove
    let toRemove :=
      if some current ≠ s.cpu.currentThread ∧ (s.cpu.threads current).parent = proc then
        some current
      else none
    removeLoop proc tests (behind s.cpu.runQueue current).head? toRemove s

/-- `remove_threads`. -/
def runRemoveThreads (proc tests : ℕ) (c : Cpu ρ) : Option (Removal ρ) :=
  (removeLoop proc tests c.runQueue.head? none ⟨c, []⟩).map fun p ↦ p.2.eraseRemoved p.1

/-! ## A cursor -/

/-- What follows a thread of a queue. -/
theorem behind_append_cons {before rest : List ℕ} {t : ℕ} (ht : t ∉ before) :
    behind (before ++ t :: rest) t = rest := by
  have hbefore : ∀ x ∈ before, (x ≠ t : Bool) = true := by
    intro x hx
    rw [decide_eq_true_eq]
    rintro rfl
    exact ht hx
  rw [behind, List.dropWhile_append_of_pos hbefore, List.dropWhile_cons_of_neg (by simp)]
  rfl

/-- The threads of the queue up to the cursor have been gone through. -/
def Removal.after (proc : ℕ) (c : Cpu ρ) (done rest : List ℕ) : Removal ρ where
  cpu :=
    { c with
      runQueue := done.filter (stays proc c) ++ rest
      runQueueCount :=
        c.runQueueCount - BitVec.ofNat 64 (done.filter (!stays proc c ·)).length }
  deleted := done.filter (!stays proc c ·)

/-- A thread that stays, or one that has been remembered and is erased. -/
theorem eraseRemoved_after {proc : ℕ} {c : Cpu ρ} {done rest : List ℕ} {t : ℕ} (ht : t ∉ done) :
    (Removal.after proc c done (t :: rest)).eraseRemoved
        (if some t ≠ c.currentThread ∧ (c.threads t).parent = proc then some t else none) =
      Removal.after proc c (done ++ [t]) rest := by
  have hstays : stays proc c t = true ↔
      ¬ (some t ≠ c.currentThread ∧ (c.threads t).parent = proc) := by
    rw [stays, decide_eq_true_eq]
    tauto
  split_ifs with hgoes
  · have hgoes' : stays proc c t = false := Bool.eq_false_iff.mpr fun h ↦ hstays.mp h hgoes
    have hmem : t ∉ done.filter (stays proc c) := fun h ↦ ht (List.mem_of_mem_filter h)
    have hcount : ∀ x : U64, c.runQueueCount - x - 1#64 = c.runQueueCount - (x + 1#64) :=
      fun x ↦ by bv_omega
    simp only [Removal.eraseRemoved, Removal.after, List.filter_append, List.filter_singleton,
      hgoes', List.length_append, List.erase_append_right _ hmem, List.erase_cons_head]
    simp [BitVec.ofNat_add, hcount]
  · have hstay : stays proc c t = true := hstays.mpr hgoes
    simp [Removal.eraseRemoved, Removal.after, List.filter_append, hstay]

/-- **The loop**: when what has been remembered is erased, the threads up to the cursor have been
gone through. -/
theorem removeLoop_eq {proc : ℕ} {c : Cpu ρ} {done rest : List ℕ}
    (hnodup : (done ++ rest).Nodup) {toRemove : Option ℕ} {s : Removal ρ}
    (hs : s.eraseRemoved toRemove = Removal.after proc c done rest) :
    ∃ p, removeLoop proc (rest.length + 1) rest.head? toRemove s = some p ∧
      p.2.eraseRemoved p.1 = Removal.after proc c (done ++ rest) [] := by
  induction rest generalizing done toRemove s with
  | nil =>
    refine ⟨(toRemove, s), rfl, ?_⟩
    rw [hs, List.append_nil]
  | cons t rest ih =>
    have ht : t ∉ done := fun h ↦
      (List.nodup_append.mp hnodup).2.2 t h t List.mem_cons_self rfl
    have hqueue : behind (Removal.after proc c done (t :: rest)).cpu.runQueue t = rest :=
      behind_append_cons fun h ↦ ht (List.mem_of_mem_filter h)
    rw [List.append_cons] at hnodup ⊢
    obtain ⟨p, hp, hafter⟩ := ih hnodup (eraseRemoved_after ht)
    refine ⟨p, ?_, hafter⟩
    rw [List.length_cons, List.head?_cons, removeLoop, hs, hqueue]
    exact hp

/-- **`remove_threads` comes to this.** -/
theorem runRemoveThreads_eq (proc : ℕ) {c : Cpu ρ} (hnodup : c.runQueue.Nodup) :
    runRemoveThreads proc (c.runQueue.length + 1) c =
      some ⟨removeThreads proc c, c.runQueue.filter (!stays proc c ·)⟩ := by
  have hstart : Removal.eraseRemoved none ⟨c, []⟩ = Removal.after proc c [] c.runQueue := by
    simp [Removal.eraseRemoved, Removal.after]
  have hqueue : ([] ++ c.runQueue).Nodup := hnodup
  obtain ⟨p, hp, hafter⟩ := removeLoop_eq hqueue hstart
  rw [runRemoveThreads, hp, Option.map_some, hafter, List.nil_append]
  simp [Removal.after, removeThreads]

/-- **What `remove_threads` does**: it returns, and the queue is left with the threads that are not
of the process, and with the current thread; the others are deleted, each once, and counted. -/
theorem runRemoveThreads_spec (proc : ℕ) (c : Cpu ρ) (hnodup : c.runQueue.Nodup) :
    ∃ tests r, runRemoveThreads proc tests c = some r ∧
      r.cpu.runQueue = c.runQueue.filter (fun t ↦
        (c.threads t).parent ≠ proc ∨ some t = c.currentThread) ∧
      r.deleted.Nodup ∧
      (∀ t, t ∈ r.deleted ↔ t ∈ c.runQueue ∧ t ∉ r.cpu.runQueue) ∧
      r.cpu.runQueueCount = c.runQueueCount - BitVec.ofNat 64 r.deleted.length ∧
      (c.runQueueCount.toNat = c.runQueue.length →
        r.cpu.runQueueCount.toNat = r.cpu.runQueue.length) ∧
      r.cpu = { c with runQueue := r.cpu.runQueue, runQueueCount := r.cpu.runQueueCount } := by
  refine ⟨_, _, runRemoveThreads_eq proc hnodup, ?_, hnodup.filter _, fun t ↦ ?_, rfl,
    fun hcount ↦ ?_, rfl⟩
  · refine List.filter_congr fun t _ ↦ ?_
    rw [stays, decide_eq_decide]
    exact or_comm
  · rw [removeThreads, List.mem_filter, List.mem_filter]
    simp only [Bool.not_eq_true', not_and, Bool.not_eq_true]
    exact and_congr_right fun ht ↦ ⟨fun h _ ↦ h, fun h ↦ h ht⟩
  · have hsum := List.length_eq_length_filter_add (l := c.runQueue) (stays proc c)
    have hlt := c.runQueueCount.isLt
    rw [removeThreads]
    dsimp only
    rw [BitVec.toNat_sub, BitVec.toNat_ofNat,
      Nat.mod_eq_of_lt (a := (c.runQueue.filter (!stays proc c ·)).length) (by omega)]
    omega

/-- Four threads, three of them of one process; the first is running. -/
def fourThreads : Cpu Unit where
  currentThread := some 1
  idleProcess := 0
  idleThread := 0
  runQueueLocked := true
  runQueueCount := 4
  runQueue := [1, 2, 3, 4]
  threads t := ⟨if t = 3 then 8 else 7, .running, 0, 0, ()⟩
  activeTicks _ := 0

/-- Two that go, with one between them that stays. -/
theorem runRemoveThreads_spec_four : ∃ tests r, runRemoveThreads 7 tests fourThreads = some r ∧
    r.cpu.runQueue = [1, 3] ∧ r.cpu.runQueueCount = 2 := by
  obtain ⟨tests, r, hrun, hqueue, -, -, -, hcount, -⟩ :=
    runRemoveThreads_spec 7 fourThreads (by decide)
  have hqueue' : r.cpu.runQueue = [1, 3] := hqueue.trans rfl
  refine ⟨tests, r, hrun, hqueue', BitVec.eq_of_toNat_eq ?_⟩
  rw [hcount rfl, hqueue']
  rfl

end Gc

end Borrrdex
