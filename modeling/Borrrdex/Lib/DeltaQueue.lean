import Mathlib.Algebra.Order.Group.Defs
import Mathlib.Data.List.Perm.Basic
import Mathlib.Tactic

/-!
# Delta queues

A queue of timers in which each entry holds its delay after the one before it.  Only the head has to
be counted down, and whatever is put in or taken out is handed to the entry behind it.

* `due` is what the delays mean, the times of the entries from a given start.  `due_enqueue` and
`due_countDown` say what putting in and counting down do to them.
* `expire` takes the entries off that have no delay left; `Nonneg.expire_eq` says that those are the
ones whose time it is, and that the others keep theirs.
* `Handed e q q'` says that `q'` is `q` without the entry `e`, whose delay its successor has got.
`Handed.enqueue` and `Handed.expire` say that it stays so.
* `Extra e q q'` says the same the other way round, of an entry that has been put in, and may be the
last one.
* `Far P n q` says that the entries that satisfy `P` do not come before `n`, and unlike `due` it
says so of queues whose head is overdue, too.
-/

set_option autoImplicit false

universe u

namespace DeltaQueue

variable {α T : Type u} [AddCommGroup T]

/-! ## Times -/

/-- The times of the entries, if `start` is that from which the head's delay counts. -/
def due (start : T) : List (α × T) → List (α × T)
  | [] => []
  | (y, d) :: q => (y, start + d) :: due (start + d) q

variable {x y : α} {delay d start : T} {q q' : List (α × T)}

theorem due_add (a : T) (q : List (α × T)) :
    due (start + a) q = (due start q).map fun p ↦ (p.1, p.2 + a) := by
  induction q generalizing start with
  | nil => rfl
  | cons p q ih =>
    obtain ⟨y, d⟩ := p
    rw [due, due, List.map_cons, add_right_comm, ih]

/-- Count the head down. -/
def countDown (a : T) : List (α × T) → List (α × T)
  | [] => []
  | (y, d) :: q => (y, d - a) :: q

/-- Counting the head down brings all entries nearer. -/
theorem due_countDown (a start : T) (q : List (α × T)) :
    due start (countDown a q) = (due start q).map fun p ↦ (p.1, p.2 - a) := by
  cases q with
  | nil => rfl
  | cons p q =>
    obtain ⟨y, d⟩ := p
    rw [countDown, due, due, List.map_cons, add_sub_assoc', sub_eq_add_neg, due_add]
    simp only [sub_eq_add_neg]

theorem map_fst_countDown (a : T) (q : List (α × T)) :
    (countDown a q).map Prod.fst = q.map Prod.fst := by
  cases q <;> rfl

theorem map_fst_due (start : T) (q : List (α × T)) :
    (due start q).map Prod.fst = q.map Prod.fst := by
  induction q generalizing start with
  | nil => rfl
  | cons p q ih =>
    obtain ⟨y, d⟩ := p
    rw [due, List.map_cons, List.map_cons, ih]

/-! ## Putting in -/

variable [LinearOrder T]

/-- Put `x` in with a delay, which the entry behind it loses. -/
def enqueue (x : α) (delay : T) : List (α × T) → List (α × T)
  | [] => [(x, delay)]
  | (y, d) :: q =>
    if delay ≤ d then (x, delay) :: (y, d - delay) :: q
    else (y, d) :: enqueue x (delay - d) q

/-- No entry comes before the one ahead of it. -/
def Nonneg (q : List (α × T)) : Prop := ∀ p ∈ q, 0 ≤ p.2

/-- **What is put in comes at its own time**, and nothing else is moved. -/
theorem due_enqueue (x : α) (delay start : T) (q : List (α × T)) :
    (due start (enqueue x delay q)).Perm ((x, start + delay) :: due start q) := by
  induction q generalizing delay start with
  | nil => exact .refl _
  | cons p q ih =>
    obtain ⟨y, d⟩ := p
    rw [enqueue]
    split
    · rw [due, due, due, add_add_sub_cancel]
    · rw [due, due]
      have h := ih (delay - d) (start + d)
      rw [add_add_sub_cancel] at h
      exact (h.cons _).trans (.swap _ _ _)

theorem map_fst_enqueue (x : α) (delay : T) (q : List (α × T)) :
    ((enqueue x delay q).map Prod.fst).Perm (x :: q.map Prod.fst) := by
  have h := (due_enqueue x delay 0 q).map Prod.fst
  rwa [map_fst_due, List.map_cons, map_fst_due] at h

/-- What is true of all elements stays so when one of which it is true is put in. -/
theorem forall_fst_enqueue {P : α → Prop} {x : α} (hx : P x) (delay : T) {q : List (α × T)}
    (hq : ∀ p ∈ q, P p.1) : ∀ p ∈ enqueue x delay q, P p.1 := by
  intro p hp
  have hmem := (map_fst_enqueue x delay q).subset (List.mem_map_of_mem hp)
  obtain heq | hmem := List.mem_cons.mp hmem
  · exact heq ▸ hx
  · obtain ⟨p', hp', heq⟩ := List.mem_map.mp hmem
    exact heq ▸ hq p' hp'

theorem head_enqueue (x : α) (hdelay : 0 < delay) (h : ∀ p ∈ q.head?, 0 < p.2) :
    ∀ p ∈ (enqueue x delay q).head?, 0 < p.2 := by
  cases q with
  | nil =>
    intro p hp
    cases hp
    exact hdelay
  | cons r q =>
    obtain ⟨y, d⟩ := r
    rw [enqueue]
    split
    · intro p hp
      cases hp
      exact hdelay
    · intro p hp
      cases hp
      exact h _ rfl

theorem nonneg_cons : Nonneg ((y, d) :: q) ↔ 0 ≤ d ∧ Nonneg q := List.forall_mem_cons

section

variable [IsOrderedAddMonoid T]

theorem Nonneg.enqueue (h : Nonneg q) (x : α) (hdelay : 0 ≤ delay) :
    Nonneg (enqueue x delay q) := by
  induction q generalizing delay with
  | nil => exact nonneg_cons.mpr ⟨hdelay, h⟩
  | cons p q ih =>
    obtain ⟨y, d⟩ := p
    obtain ⟨hd, hq⟩ := nonneg_cons.mp h
    rw [DeltaQueue.enqueue]
    split
    · next hle => exact nonneg_cons.mpr ⟨hdelay, nonneg_cons.mpr ⟨sub_nonneg.mpr hle, hq⟩⟩
    · next hlt => exact nonneg_cons.mpr ⟨hd, ih hq (sub_nonneg.mpr (not_le.mp hlt).le)⟩

theorem Nonneg.le_due (h : Nonneg q) {p : α × T} (hp : p ∈ due start q) : start ≤ p.2 := by
  induction q generalizing start with
  | nil => cases hp
  | cons r q ih =>
    obtain ⟨y, d⟩ := r
    obtain ⟨hd, hq⟩ := nonneg_cons.mp h
    rw [due] at hp
    obtain rfl | hp := List.mem_cons.mp hp
    · exact le_add_of_nonneg_right hd
    · exact (le_add_of_nonneg_right hd).trans (ih hq hp)

end

/-! ## Expiry -/

/-- Take the entries off that have no delay left. -/
def expire : List (α × T) → List α × List (α × T)
  | [] => ([], [])
  | (y, d) :: q => if d ≤ 0 then (y :: (expire q).1, (expire q).2) else ([], (y, d) :: q)

theorem expire_append (q : List (α × T)) :
    (expire q).1 ++ (expire q).2.map Prod.fst = q.map Prod.fst := by
  induction q with
  | nil => rfl
  | cons p q ih =>
    obtain ⟨y, d⟩ := p
    rw [expire]
    split
    · exact congrArg (y :: ·) ih
    · rfl

theorem expire_suffix (q : List (α × T)) : (expire q).2 <:+ q := by
  induction q with
  | nil => exact List.suffix_rfl
  | cons p q ih =>
    obtain ⟨y, d⟩ := p
    rw [expire]
    split
    · exact ih.trans (List.suffix_cons _ _)
    · exact List.suffix_rfl

theorem Nonneg.expire (h : Nonneg q) : Nonneg (expire q).2 := by
  induction q with
  | nil => exact h
  | cons p q ih =>
    obtain ⟨y, d⟩ := p
    rw [DeltaQueue.expire]
    split
    · exact ih (nonneg_cons.mp h).2
    · exact h

/-- What is left has a head that is not due. -/
theorem head_expire (q : List (α × T)) : ∀ p ∈ (expire q).2.head?, 0 < p.2 := by
  induction q with
  | nil => exact fun p hp ↦ nomatch hp
  | cons p q ih =>
    obtain ⟨y, d⟩ := p
    rw [expire]
    split
    · exact ih
    · next hd =>
      intro p hp
      cases hp
      exact not_le.mp hd

/-- **Those that expire are those whose time it is.** -/
theorem Nonneg.expire_eq [IsOrderedAddMonoid T] (h : Nonneg q) :
    (DeltaQueue.expire q).1 = ((due 0 q).filter fun p ↦ p.2 = 0).map Prod.fst ∧
      due 0 (DeltaQueue.expire q).2 = (due 0 q).filter fun p ↦ p.2 ≠ 0 := by
  induction q with
  | nil => exact ⟨rfl, rfl⟩
  | cons p q ih =>
    obtain ⟨y, d⟩ := p
    obtain ⟨hd, hq⟩ := nonneg_cons.mp h
    rw [DeltaQueue.expire, due, zero_add]
    split
    · next hle =>
      obtain rfl : d = 0 := le_antisymm hle hd
      obtain ⟨ih₁, ih₂⟩ := ih hq
      constructor
      · simp [ih₁]
      · simp [ih₂]
    · next hlt =>
      have hlate : ∀ p ∈ due d q, p.2 ≠ 0 := fun p hp ↦
        ((not_le.mp hlt).trans_le (hq.le_due hp)).ne'
      have hne : d ≠ 0 := (not_le.mp hlt).ne'
      constructor
      · rw [List.filter_cons_of_neg (by simpa using hne), List.filter_eq_nil_iff.mpr]
        · rfl
        · simpa using fun a b hp ↦ hlate (a, b) hp
      · rw [List.filter_cons_of_pos (by simpa using hne), List.filter_eq_self.mpr, due, zero_add]
        simpa using fun a b hp ↦ hlate (a, b) hp

/-! ## Taking out -/

/-- `q'` is `q` without the entry `e`, whose delay its successor has got. -/
inductive Handed (e : α) : List (α × T) → List (α × T) → Prop
  | here {d d' : T} (x : α) (q : List (α × T)) (hd : 0 ≤ d) (hd' : 0 ≤ d') :
    Handed e ((e, d) :: (x, d') :: q) ((x, d' + d) :: q)
  | cons (p : α × T) {q q' : List (α × T)} (h : Handed e q q') : Handed e (p :: q) (p :: q')

namespace Handed

variable {e : α}

theorem map_fst (h : Handed e q q') : (q.map Prod.fst).Perm (e :: q'.map Prod.fst) := by
  induction h with
  | here x q hd hd' => exact .refl _
  | cons p h ih => exact (ih.cons _).trans (.swap _ _ _)

variable [IsOrderedAddMonoid T]

theorem enqueue (h : Handed e q q') (x : α) (delay : T) :
    Handed e (enqueue x delay q) (DeltaQueue.enqueue x delay q') := by
  induction h generalizing delay with
  | @here d d' z q hd hd' =>
    by_cases hle : delay ≤ d
    · rw [DeltaQueue.enqueue, if_pos hle, DeltaQueue.enqueue,
        if_pos (hle.trans (le_add_of_nonneg_left hd')), add_sub_assoc]
      exact .cons _ (.here z q (sub_nonneg.mpr hle) hd')
    · rw [DeltaQueue.enqueue, if_neg hle, DeltaQueue.enqueue, DeltaQueue.enqueue]
      by_cases hle' : delay - d ≤ d'
      · rw [if_pos hle', if_pos (sub_le_iff_le_add.mp hle'), sub_sub_eq_add_sub]
        have hhanded := Handed.here (e := e) x ((z, d' + d - delay) :: q) hd
          (sub_nonneg.mpr (not_le.mp hle).le)
        rwa [sub_add_cancel] at hhanded
      · rw [if_neg hle', if_neg (sub_le_iff_le_add.not.mp hle'), sub_sub, add_comm d d']
        exact .here z _ hd hd'
  | cons p h ih =>
    obtain ⟨y, d⟩ := p
    rw [DeltaQueue.enqueue, DeltaQueue.enqueue]
    split
    · exact .cons _ (.cons _ h)
    · exact .cons _ (ih (delay - d))

/-- What expires, expires without `e` too; and when `e` has expired, the rest is the same. -/
theorem expire (h : Handed e q q') :
    ((expire q).1 = (DeltaQueue.expire q').1 ∧
      Handed e (DeltaQueue.expire q).2 (DeltaQueue.expire q').2) ∨
    ∃ l r, (DeltaQueue.expire q).1 = l ++ e :: r ∧ (DeltaQueue.expire q').1 = l ++ r ∧
      (DeltaQueue.expire q).2 = (DeltaQueue.expire q').2 := by
  induction h with
  | @here d d' z q hd hd' =>
    rw [DeltaQueue.expire]
    by_cases hle : d ≤ 0
    · obtain rfl : d = 0 := le_antisymm hle hd
      rw [if_pos hle, add_zero]
      exact .inr ⟨[], _, rfl, rfl, rfl⟩
    · have hpos : ¬ d' + d ≤ 0 := not_le.mpr (add_pos_of_nonneg_of_pos hd' (not_le.mp hle))
      rw [if_neg hle, DeltaQueue.expire, if_neg hpos]
      exact .inl ⟨rfl, .here z q hd hd'⟩
  | cons p h ih =>
    obtain ⟨y, d⟩ := p
    rw [DeltaQueue.expire, DeltaQueue.expire]
    split
    · obtain ⟨hfst, hsnd⟩ | ⟨l, r, hl, hr, hsnd⟩ := ih
      · exact .inl ⟨congrArg (y :: ·) hfst, hsnd⟩
      · exact .inr ⟨y :: l, r, congrArg (y :: ·) hl, congrArg (y :: ·) hr, hsnd⟩
    · exact .inl ⟨rfl, .cons _ h⟩

end Handed

/-! ## One entry more -/

/-- `q` is `q'` with the entry `e` put in: its delay is its successor's loss, if it has one. -/
def Extra (e : α) (q q' : List (α × T)) : Prop :=
  Handed e q q' ∨ ∃ d, 0 ≤ d ∧ q = q' ++ [(e, d)]

namespace Extra

variable {e : α}

theorem cons (p : α × T) (h : Extra e q q') : Extra e (p :: q) (p :: q') := by
  obtain h | ⟨d, hd, rfl⟩ := h
  · exact .inl (.cons p h)
  · exact .inr ⟨d, hd, rfl⟩

theorem map_fst (h : Extra e q q') : (q.map Prod.fst).Perm (e :: q'.map Prod.fst) := by
  obtain h | ⟨d, hd, rfl⟩ := h
  · exact h.map_fst
  · rw [List.map_append]
    exact List.perm_append_singleton _ _

variable [IsOrderedAddMonoid T]

/-- Putting it in. -/
theorem of_enqueue (e : α) (hdelay : 0 ≤ delay) (q : List (α × T)) :
    Extra e (enqueue e delay q) q := by
  induction q generalizing delay with
  | nil => exact .inr ⟨delay, hdelay, rfl⟩
  | cons p q ih =>
    obtain ⟨y, d⟩ := p
    rw [DeltaQueue.enqueue]
    split
    · next hle =>
      have hhanded := Handed.here (e := e) y q hdelay (sub_nonneg.mpr hle)
      rw [sub_add_cancel] at hhanded
      exact .inl hhanded
    · next hlt => exact (ih (sub_nonneg.mpr (not_le.mp hlt).le)).cons (y, d)

/-- Another entry goes in with it as without it. -/
theorem enqueue (h : Extra e q q') (x : α) (delay : T) :
    Extra e (enqueue x delay q) (DeltaQueue.enqueue x delay q') := by
  obtain h | ⟨d, hd, rfl⟩ := h
  · exact .inl (h.enqueue x delay)
  · induction q' generalizing delay with
    | nil =>
      rw [List.nil_append, DeltaQueue.enqueue, DeltaQueue.enqueue]
      split
      · next hle => exact .inr ⟨d - delay, sub_nonneg.mpr hle, rfl⟩
      · next hlt =>
        have hhanded := Handed.here (e := e) x [] hd (sub_nonneg.mpr (not_le.mp hlt).le)
        rw [sub_add_cancel] at hhanded
        exact .inl hhanded
    | cons p q' ih =>
      obtain ⟨y, d'⟩ := p
      rw [List.cons_append, DeltaQueue.enqueue, DeltaQueue.enqueue]
      split
      · exact .inr ⟨d, hd, rfl⟩
      · exact (ih (delay - d')).cons (y, d')

/-- What expires, expires without `e` too; and when `e` has expired, the rest is the same. -/
theorem expire (h : Extra e q q') :
    ((expire q).1 = (DeltaQueue.expire q').1 ∧
      Extra e (DeltaQueue.expire q).2 (DeltaQueue.expire q').2) ∨
    ∃ l r, (DeltaQueue.expire q).1 = l ++ e :: r ∧ (DeltaQueue.expire q').1 = l ++ r ∧
      (DeltaQueue.expire q).2 = (DeltaQueue.expire q').2 := by
  obtain h | ⟨d, hd, rfl⟩ := h
  · exact h.expire.imp_left fun hleft ↦ ⟨hleft.1, .inl hleft.2⟩
  · induction q' with
    | nil =>
      have hlast : DeltaQueue.expire [(e, d)] = if d ≤ 0 then ([e], []) else ([], [(e, d)]) := rfl
      rw [List.nil_append, hlast]
      split
      · exact .inr ⟨[], [], rfl, rfl, rfl⟩
      · exact .inl ⟨rfl, .inr ⟨d, hd, rfl⟩⟩
    | cons p q' ih =>
      obtain ⟨y, d'⟩ := p
      rw [List.cons_append, DeltaQueue.expire, DeltaQueue.expire]
      split
      · obtain ⟨hfst, hsnd⟩ | ⟨l, r, hl, hr, hsnd⟩ := ih
        · exact .inl ⟨congrArg (y :: ·) hfst, hsnd⟩
        · exact .inr ⟨y :: l, r, congrArg (y :: ·) hl, congrArg (y :: ·) hr, hsnd⟩
      · exact .inl ⟨rfl, .inr ⟨d, hd, rfl⟩⟩

end Extra

/-! ## Overdue heads -/

/-- By how much the head is overdue. -/
def overdue : List (α × T) → T
  | [] => 0
  | (_, d) :: _ => max 0 (-d)

/-- The entries that satisfy `P` have `n` to go at least.  What an overdue entry ahead of them is
late by does not bring them nearer. -/
def Far (P : α → Prop) (n : T) : List (α × T) → Prop
  | [] => True
  | (y, d) :: q => (P y → n ≤ d) ∧ Far P (n - max 0 d) q

section

variable {P : α → Prop} {a m n : T}

theorem far_of_forall_not (h : ∀ p ∈ q, ¬ P p.1) : Far P n q := by
  induction q generalizing n with
  | nil => trivial
  | cons p q ih =>
    obtain ⟨hp, hq⟩ := List.forall_mem_cons.mp h
    exact ⟨fun hP ↦ absurd hP hp, ih hq⟩

theorem Far.expire (hn : 0 < n) (h : Far P n q) :
    (∀ x ∈ (expire q).1, ¬ P x) ∧ Far P n (DeltaQueue.expire q).2 := by
  induction q with
  | nil => exact ⟨List.forall_mem_nil _, trivial⟩
  | cons p q ih =>
    obtain ⟨y, d⟩ := p
    rw [DeltaQueue.expire]
    split
    · next hd =>
      have hq : Far P n q := by simpa [max_eq_left hd] using h.2
      exact ⟨List.forall_mem_cons.mpr ⟨fun hP ↦ (hn.trans_le (h.1 hP)).not_ge hd, (ih hq).1⟩,
        (ih hq).2⟩
    · exact ⟨List.forall_mem_nil _, h⟩

theorem Nonneg.far_enqueue (hq : Nonneg q) (hP : ∀ p ∈ q, ¬ P p.1) (x : α) :
    Far P n (DeltaQueue.enqueue x n q) := by
  induction q generalizing n with
  | nil => exact ⟨fun _ ↦ le_rfl, trivial⟩
  | cons p q ih =>
    obtain ⟨y, d⟩ := p
    obtain ⟨hd, hq⟩ := nonneg_cons.mp hq
    obtain ⟨hy, hrest⟩ := List.forall_mem_cons.mp hP
    rw [DeltaQueue.enqueue]
    split
    · refine ⟨fun _ ↦ le_rfl, far_of_forall_not ?_⟩
      exact List.forall_mem_cons.mpr ⟨hy, hrest⟩
    · refine ⟨fun hPy ↦ absurd hPy hy, ?_⟩
      rw [max_eq_right hd]
      exact ih hq hrest

variable [IsOrderedAddMonoid T]

theorem Far.mono (hmn : m ≤ n) (h : Far P n q) : Far P m q := by
  induction q generalizing m n with
  | nil => trivial
  | cons p q ih => exact ⟨fun hP ↦ hmn.trans (h.1 hP), ih (sub_le_sub_right hmn _) h.2⟩

theorem Far.countDown (ha : 0 ≤ a) (h : Far P n q) : Far P (n - a) (countDown a q) := by
  cases q with
  | nil => trivial
  | cons p q =>
    obtain ⟨y, d⟩ := p
    have hmax : max 0 d ≤ a + max 0 (d - a) := by
      refine max_le (add_nonneg ha (le_max_left _ _)) ?_
      exact sub_le_iff_le_add'.mp (le_max_right 0 (d - a))
    refine ⟨fun hP ↦ sub_le_sub_right (h.1 hP) a, h.2.mono ?_⟩
    rw [sub_sub]
    exact sub_le_sub_left hmax n

/-- Another entry that is put in does not bring them nearer. -/
theorem Far.enqueue (hx : ¬ P x) (h : Far P n q) : Far P n (enqueue x delay q) := by
  induction q generalizing delay n with
  | nil => exact ⟨fun hP ↦ absurd hP hx, trivial⟩
  | cons p q ih =>
    obtain ⟨y, d⟩ := p
    rw [DeltaQueue.enqueue]
    split
    · have hmax : max 0 d ≤ max 0 delay + max 0 (d - delay) := by
        refine max_le (add_nonneg (le_max_left _ _) (le_max_left _ _)) ?_
        have hadd := add_le_add (le_max_right 0 delay) (le_max_right 0 (d - delay))
        rwa [add_sub_cancel] at hadd
      refine ⟨fun hP ↦ absurd hP hx, fun hP ↦ sub_le_sub (h.1 hP) (le_max_right 0 delay), ?_⟩
      refine h.2.mono ?_
      rw [sub_sub]
      exact sub_le_sub_left hmax n
    · exact ⟨h.1, ih h.2⟩

/-- **What is put in has its own delay to go**, and as much more as the head is overdue. -/
theorem far_enqueue (hq : Nonneg q.tail) (hP : ∀ p ∈ q, ¬ P p.1) (x : α) (hn : 0 ≤ n) :
    Far P (n + overdue q) (DeltaQueue.enqueue x n q) := by
  cases q with
  | nil => exact ⟨fun _ ↦ (add_zero n).le, trivial⟩
  | cons p q =>
    obtain ⟨y, d⟩ := p
    obtain ⟨hy, hrest⟩ := List.forall_mem_cons.mp hP
    rw [DeltaQueue.enqueue, overdue]
    split
    · next hle =>
      rw [max_eq_left (neg_nonpos.mpr (hn.trans hle)), add_zero]
      refine ⟨fun _ ↦ le_rfl, far_of_forall_not ?_⟩
      exact List.forall_mem_cons.mpr ⟨hy, hrest⟩
    · have hmax : n + max 0 (-d) - max 0 d = n - d := by
        rcases le_total 0 d with hd | hd
        · rw [max_eq_left (neg_nonpos.mpr hd), max_eq_right hd, add_zero]
        · rw [max_eq_right (neg_nonneg.mpr hd), max_eq_left hd, sub_zero, sub_eq_add_neg]
      refine ⟨fun hPy ↦ absurd hPy hy, ?_⟩
      rw [hmax]
      exact Nonneg.far_enqueue hq hrest x

end

end DeltaQueue
