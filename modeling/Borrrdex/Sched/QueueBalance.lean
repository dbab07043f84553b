import Borrrdex.Sched.RunQueues
import Mathlib.Tactic

/-!
# Balance of the run queues

`insert_new_thread` puts a thread into a shortest queue: the loop goes through the processors with
the best one so far, and stops early at an empty queue.  While threads only come, one after the
other and each alone at its queue, the lengths of two queues therefore differ by one at most.
-/

set_option autoImplicit false

namespace Borrrdex

namespace Processors

variable {n : ℕ} {ρ : Type} {s s' : State n ρ} {c d : Fin (n + 1)} {t : ℕ}

/-- Threads come one after the other, and each is alone at its queue.  None leaves: no current
thread is dying when `schedule` is called, and no process ends. -/
structure Filling (s : State n ρ) (a : Act n ρ) : Prop where
  alone : Alone s a
  one : ∀ t thread, a = .insert t thread → ∀ u, s.inserting u = none
  alive : ∀ c, a = .schedule c → ∀ t ∈ (s.cpu c).currentThread, (s.cpu c).state t ≠ .dying
  stays : ∀ c, (∀ proc, a ≠ .lock c proc) ∧ a ≠ .remove c

/-- The length of a run queue. -/
def State.length (s : State n ρ) (c : Fin (n + 1)) : ℕ := (s.cpu c).runQueue.length

/-- What a call of `insert_new_thread` has found out. -/
def State.Least (s : State n ρ) : InsertPc n → Prop
  | .choose i c => ∀ j : Fin (n + 1), j.val < i → s.length c ≤ s.length j
  | .copyLock c | .push c => ∀ j, s.length c ≤ s.length j
  | .load _ | .store .. => True

/-- **The invariant**: the queues are balanced, and the one thread on its way goes to a shortest. -/
structure Balanced (s : State n ρ) : Prop where
  inOrder : InOrder s
  balanced : ∀ c d, s.length c ≤ s.length d + 1
  single : ∀ t u, (s.inserting t).isSome → (s.inserting u).isSome → t = u
  least : ∀ t pc, s.inserting t = some pc → s.Least pc

theorem least_congr (h : ∀ c, s'.length c = s.length c) (pc : InsertPc n) :
    s'.Least pc ↔ s.Least pc := by
  cases pc <;> simp only [State.Least, h]

/-- The queues and the insertions are as they were. -/
theorem Balanced.congr (hs : Balanced s) (hs' : InOrder s')
    (hlength : ∀ c, s'.length c = s.length c) (hinserting : s'.inserting = s.inserting) :
    Balanced s' where
  inOrder := hs'
  balanced c d := by
    rw [hlength, hlength]
    exact hs.balanced c d
  single t u := by
    rw [hinserting]
    exact hs.single t u
  least t pc hpc := (least_congr hlength pc).mpr (hs.least t pc (hinserting ▸ hpc))

/-- The one call of `insert_new_thread` gets on. -/
theorem Balanced.setPc (hs : Balanced s) (ht : (s.inserting t).isSome) (hs' : InOrder s')
    (hlength : ∀ c, s'.length c = s.length c) {pc : InsertPc n} (hpc : s.Least pc)
    (hinserting : s'.inserting = Function.update s.inserting t (some pc)) : Balanced s' where
  inOrder := hs'
  balanced c d := by
    rw [hlength, hlength]
    exact hs.balanced c d
  single u v hu hv := by
    have hone : ∀ w, (s'.inserting w).isSome → w = t := fun w hw ↦ by
      by_contra hne
      rw [hinserting, Function.update_of_ne hne] at hw
      exact hne (hs.single w t hw ht)
    rw [hone u hu, hone v hv]
  least u pc' hpc' := by
    rw [least_congr hlength]
    rw [hinserting] at hpc'
    by_cases hut : u = t
    · rw [hut, Function.update_self] at hpc'
      cases hpc'
      exact hpc
    · rw [Function.update_of_ne hut] at hpc'
      exact hs.least u pc' hpc'

/-- The loop keeps a shortest of the queues that it has seen. -/
theorem least_choose (hs : InOrder s) (hat : ∀ t c, ¬ s.At t c) {i : ℕ}
    (h : s.Least (.choose i c)) : s.Least (choose s i c) := by
  have hcount : ∀ c, (s.cpu c).runQueueCount.toNat = s.length c := fun c ↦
    hs.counted.count c (hat · c)
  rw [choose]
  split
  · next hi =>
    dsimp only
    set best := if (s.cpu ⟨i, hi⟩).runQueueCount < (s.cpu c).runQueueCount then ⟨i, hi⟩ else c
      with hbest
    have hc : s.length best ≤ s.length c ∧ s.length best ≤ s.length ⟨i, hi⟩ := by
      rw [hbest]
      split_ifs with hlt <;> rw [BitVec.lt_def, hcount, hcount] at hlt <;> omega
    split_ifs with hzero
    · intro j
      rw [← hcount, hzero]
      exact Nat.zero_le _
    · intro j hj
      obtain hlt | heq := Nat.lt_succ_iff_lt_or_eq.mp hj
      · exact hc.1.trans (h j hlt)
      · have hji : j = ⟨i, hi⟩ := Fin.ext heq
        rw [hji]
        exact hc.2
  · next hi => exact fun j ↦ h j (by omega)

/-- A thread gets to a shortest queue. -/
theorem Balanced.push (hs : Balanced s) (ht : s.inserting t = some (.push c)) (hs' : InOrder s')
    (hlength : s'.length c = s.length c + 1) (hother : ∀ d, d ≠ c → s'.length d = s.length d)
    (hinserting : s'.inserting = Function.update s.inserting t (some (.load c))) :
    Balanced s' := by
  have hone : ∀ u, (s'.inserting u).isSome → u = t := fun u hu ↦ by
    by_contra hne
    rw [hinserting, Function.update_of_ne hne] at hu
    exact hne (hs.single u t hu (by rw [ht]; rfl))
  have hleast : ∀ j, s.length c ≤ s.length j := hs.least t _ ht
  refine ⟨hs', fun d e ↦ ?_, fun u v hu hv ↦ (hone u hu).trans (hone v hv).symm,
    fun u pc hpc ↦ ?_⟩
  · have hde := hs.balanced d e
    have hd : s'.length d = s.length d ∨ d = c := (ne_or_eq d c).imp (hother d) id
    have he : s'.length e = s.length e ∨ e = c := (ne_or_eq e c).imp (hother e) id
    have hle := hleast d
    have hle' := hleast e
    obtain hd | rfl := hd
    · obtain he | rfl := he
      · omega
      · omega
    · obtain he | rfl := he
      · omega
      · omega
  · rw [hone u (by rw [hpc]; rfl), hinserting, Function.update_self] at hpc
    cases hpc
    trivial

/-- The one call of `insert_new_thread` is over. -/
theorem Balanced.over (hs : Balanced s) (ht : (s.inserting t).isSome) (hs' : InOrder s')
    (hlength : ∀ c, s'.length c = s.length c)
    (hinserting : s'.inserting = Function.update s.inserting t none) : Balanced s' := by
  have hnone : ∀ u, s'.inserting u = none := fun u ↦ by
    rw [hinserting]
    by_cases hut : u = t
    · rw [hut, Function.update_self]
    · rw [Function.update_of_ne hut]
      by_contra hsome
      exact hut (hs.single u t (Option.isSome_iff_ne_none.mpr hsome) ht)
  refine ⟨hs', fun d e ↦ ?_, fun u _ hu ↦ by simp [hnone u] at hu,
    fun u pc hpc ↦ by simp [hnone u] at hpc⟩
  rw [hlength, hlength]
  exact hs.balanced d e

/-- While a thread is on its way, no other is at a queue. -/
theorem Balanced.not_at (hs : Balanced s) {pc : InsertPc n} (hpc : s.inserting t = some pc)
    (hqueue : pc.queue = none) (u : ℕ) (d : Fin (n + 1)) : ¬ s.At u d := fun hu ↦ by
  have hsome : (s.inserting u).isSome := by
    by_contra hnone
    rw [State.At, Option.not_isSome_iff_eq_none.mp hnone] at hu
    cases hu
  rw [hs.single u t hsome (by rw [hpc]; rfl), State.at_of_eq hpc, hqueue] at hu
  cases hu

theorem Balanced.advance (hs : Balanced s) (ha : Alone s (.advance t))
    (h : advance s t = some s') : Balanced s' := by
  have hs' := hs.inOrder.advance ha h
  unfold Processors.advance at h
  split at h
  · cases h
  · next hpc =>
    cases h
    exact hs.setPc (by simp [hpc]) hs' (fun _ ↦ rfl)
      (least_choose hs.inOrder (hs.not_at hpc rfl) (hs.least t _ hpc)) rfl
  · next c hpc =>
    cases h
    have hleast : s.Least (.push c) := hs.least t (.copyLock c) hpc
    exact hs.setPc (by simp [hpc]) hs' (fun _ ↦ rfl) hleast rfl
  · next c hpc =>
    cases h
    let k : Cpu ρ := { s.cpu c with runQueue := (s.cpu c).runQueue ++ [t] }
    refine hs.push hpc hs' ?_ (fun d hd ↦ ?_) rfl
    · have hself : (s.put c k).cpu c = k := State.cpu_put_self ..
      have hlength : (s.put c k).length c = k.runQueue.length := by rw [State.length, hself]
      exact hlength.trans List.length_append
    · have hother : (s.put c k).cpu d = { s.cpu d with
          threads := k.threads, activeTicks := k.activeTicks } := State.cpu_put_of_ne hd
      have hlength : (s.put c k).length d = s.length d := by
        rw [State.length, hother]
        rfl
      exact hlength
  · next c hpc =>
    cases h
    have hleast : s.Least (.store c ((s.cpu c).runQueueCount + 1)) := trivial
    exact hs.setPc (by simp [hpc]) hs' (fun _ ↦ rfl) hleast rfl
  · next c count hpc =>
    cases h
    refine hs.over (by simp [hpc]) hs' (fun d ↦ ?_) rfl
    exact congrArg List.length
      (State.runQueue_put (k := { s.cpu c with runQueueCount := count }) rfl d)

/-- **Each step keeps the balance.** -/
theorem Balanced.step (hs : Balanced s) {a : Act n ρ} (ha : Filling s a)
    (h : step s a = some s') : Balanced s' := by
  have hs' := hs.inOrder.step ha.alone h
  cases a with
  | exec c f =>
    cases h
    exact hs.congr hs' (fun _ ↦ rfl) rfl
  | schedule c =>
    have hswitch := (hs.inOrder.wellFormed_cpu ha.alone).switch_schedule (s.live c)
    rw [Processors.step] at h
    generalize (s.cpu c).schedule (s.live c) = r at h hswitch
    cases hswitch with
    | @stay k current queue registers =>
      cases h
      exact hs.congr hs' (fun d ↦ congrArg List.length (State.runQueue_put queue d)) rfl
    | @next k d alive current queue registers =>
      cases h
      exact hs.congr hs' (fun d ↦ congrArg List.length (State.runQueue_put queue d)) rfl
    | dying dying => exact absurd dying.2 (ha.alive c rfl _ dying.1)
  | write t state timeSlice timeSliceDefault =>
    rw [Processors.step] at h
    split_ifs at h
    cases h
    exact hs.congr hs' (fun _ ↦ rfl) rfl
  | insert t thread =>
    rw [Processors.step] at h
    split_ifs at h
    cases h
    have hnone := ha.one t thread rfl
    refine ⟨hs', hs.balanced, fun u v hu hv ↦ ?_, fun u pc hpc ↦ ?_⟩
    · have hone : ∀ w, (Function.update s.inserting t (some (.choose 1 0)) w).isSome → w = t :=
        fun w hw ↦ by
          by_contra hne
          rw [Function.update_of_ne hne, hnone w] at hw
          cases hw
      rw [hone u hu, hone v hv]
    · dsimp only at hpc
      by_cases hut : u = t
      · rw [hut, Function.update_self] at hpc
        cases hpc
        intro j hj
        have hzero : j = 0 := Fin.ext (Nat.lt_one_iff.mp hj)
        rw [hzero]
      · rw [Function.update_of_ne hut, hnone u] at hpc
        cases hpc
  | advance t => exact hs.advance ha.alone h
  | lock c proc => exact absurd rfl ((ha.stays c).1 proc)
  | remove c => exact absurd rfl (ha.stays c).2

theorem Started.balanced (hs : Started s) : Balanced s where
  inOrder := hs.inOrder
  balanced c d := by simp [State.length, hs.runQueue]
  single t u h := by simp [hs.inserting] at h
  least t pc h := by simp [hs.inserting] at h

/-- **Two run queues differ by one thread at most** while threads come one after the other, each
alone at its queue, and none leaves, whatever else the processors do. -/
theorem queue_balance (h : (processors n ρ).Reaches Filling s) (c d : Fin (n + 1)) :
    (s.cpu c).runQueue.length ≤ (s.cpu d).runQueue.length + 1 := by
  have hs : Balanced s :=
    h.invariant (fun _ hs ↦ Started.balanced hs) fun _ _ _ hs ha hstep ↦ hs.step ha hstep
  exact hs.balanced c d

theorem filling_advance (h : Only s t) : Filling s (.advance t) where
  alone := h.alone
  one _ _ h := nomatch h
  alive _ h := nomatch h
  stays _ := ⟨fun _ h ↦ (nomatch h), fun h ↦ (nomatch h)⟩

theorem filling_insert (h : ∀ u, s.inserting u = none) (thread : Thread ρ) :
    Filling s (.insert t thread) where
  alone := trivial
  one _ _ _ := h
  alive _ h := nomatch h
  stays _ := ⟨fun _ h ↦ (nomatch h), fun h ↦ (nomatch h)⟩

/-- A thread is inserted, in so many steps. -/
def inserted (t steps : ℕ) : List (Act 1 ℕ) :=
  .insert t ⟨7, .running, 0, 0, 5⟩ :: List.replicate steps (.advance t)

theorem only_inserted {s s' : State 1 ℕ} (hnone : ∀ u, s.inserting u = none)
    (hlock : ∀ c, (s.cpu c).runQueueLocked = false) {thread : Thread ℕ}
    (h : step s (.insert t thread) = some s') : Only s' t := by
  rw [step] at h
  split_ifs at h
  cases h
  exact ⟨fun u hu ↦ (Function.update_of_ne hu ..).trans (hnone u), hlock⟩

theorem along_inserted {s s' : State 1 ℕ} {steps : ℕ} {acts : List (Act 1 ℕ)}
    (hnone : ∀ u, s.inserting u = none) (hlock : ∀ c, (s.cpu c).runQueueLocked = false)
    (hrun : run s (inserted t steps) = some s')
    (hrest : Only s' t → (processors 1 ℕ).Along Filling s' acts) :
    (processors 1 ℕ).Along Filling s (inserted t steps ++ acts) := by
  obtain ⟨middle, hfirst, hrun⟩ := Option.bind_eq_some_iff.mp hrun
  have honly := only_inserted hnone hlock hfirst
  exact .cons (filling_insert hnone _) hfirst (honly.along (fun _ ↦ filling_advance) hrun hrest)

/-- Two threads have come: the second went to the queue that was empty. -/
theorem queue_balance_two :
    ∃ s', run twoProcessors (inserted 10 5 ++ inserted 11 5) = some s' ∧
      (s'.cpu 0).runQueue = [10] ∧ (s'.cpu 1).runQueue = [11] ∧
      (s'.cpu 0).runQueue.length ≤ (s'.cpu 1).runQueue.length + 1 := by
  have hqueues : (run twoProcessors (inserted 10 5 ++ inserted 11 5)).map (fun s ↦
      ((s.cpu 0).runQueue, (s.cpu 1).runQueue)) = some ([10], [11]) := by decide +kernel
  have hover : ((run twoProcessors (inserted 10 5)).bind (·.inserting 10)).isNone := by
    decide +kernel
  obtain ⟨s', hrun, hend⟩ := Option.map_eq_some_iff.mp hqueues
  obtain ⟨middle, hfirst, hsecond⟩ := Option.bind_eq_some_iff.mp
    ((List.foldlM_append (f := step) ..).symm.trans hrun)
  have halong : (processors 1 ℕ).Along Filling twoProcessors (inserted 10 5 ++ inserted 11 5) := by
    refine along_inserted (fun _ ↦ rfl) (fun _ ↦ rfl) hfirst fun honly ↦ ?_
    have hnone := honly.none (by
      have hfirst' : run twoProcessors (inserted 10 5) = some middle := hfirst
      rw [hfirst'] at hover
      exact Option.isNone_iff_eq_none.mp hover)
    rw [← List.append_nil (inserted 11 5)]
    exact along_inserted hnone honly.unlocked hsecond fun _ ↦ trivial
  exact ⟨s', hrun, congrArg Prod.fst hend, congrArg Prod.snd hend,
    queue_balance (.along (.initial twoProcessors_started) halong hrun) 0 1⟩

end Processors

end Borrrdex
