import Mathlib.Data.List.InsertIdx
import Mathlib.Data.List.Pairwise
import Mathlib.Order.Bounds.Basic

/-!
# Lists of intervals

A program that hands out ranges of addresses keeps them in a list, in order and disjoint.  A
`Span` is such a range, half open, and `Apart` is the order.

Two searches through the list are here.  `firstFit` moves a candidate up past every span that is in
its way, and stops in the first gap that is long enough; `firstFit_isLeast` says that this is the
lowest place there is.  `coveredTo` follows spans that touch, from an address on, and
`covers_iff_coveredTo` says that this is how far the spans cover every address.
-/

set_option autoImplicit false

/-- A half-open interval of addresses. -/
structure Span where
  /-- The first address. -/
  lo : Nat
  /-- The first address after it. -/
  hi : Nat

namespace Span

/-- The address is in the span. -/
def Contains (s : Span) (a : Nat) : Prop := s.lo ≤ a ∧ a < s.hi

/-- The spans are in order, none of them empty and no two of them overlapping. -/
structure Apart (l : List Span) : Prop where
  nonempty : ∀ s ∈ l, s.lo < s.hi
  ordered : l.Pairwise fun s t ↦ s.hi ≤ t.lo

theorem apart_nil : Apart [] := ⟨by simp, List.Pairwise.nil⟩

theorem Apart.of_cons {s : Span} {l : List Span} (h : Apart (s :: l)) :
    s.lo < s.hi ∧ (∀ t ∈ l, s.hi ≤ t.lo) ∧ Apart l := by
  obtain ⟨hfirst, hrest⟩ := List.pairwise_cons.mp h.ordered
  exact ⟨h.nonempty s List.mem_cons_self, hfirst,
    fun t ht ↦ h.nonempty t (List.mem_cons_of_mem s ht), hrest⟩

theorem Apart.cons {s : Span} {l : List Span} (hs : s.lo < s.hi) (hafter : ∀ t ∈ l, s.hi ≤ t.lo)
    (hl : Apart l) : Apart (s :: l) :=
  ⟨List.forall_mem_cons.mpr ⟨hs, hl.nonempty⟩, List.pairwise_cons.mpr ⟨hafter, hl.ordered⟩⟩

/-- Two spans of the list that contain the same address are one. -/
theorem Apart.unique {l : List Span} (h : Apart l) {a i j : Nat} {s t : Span}
    (hi : l[i]? = some s) (hj : l[j]? = some t) (hs : s.Contains a) (ht : t.Contains a) :
    i = j := by
  obtain ⟨hi', rfl⟩ := List.getElem?_eq_some_iff.mp hi
  obtain ⟨hj', rfl⟩ := List.getElem?_eq_some_iff.mp hj
  have hord := List.pairwise_iff_getElem.mp h.ordered
  rcases Nat.lt_trichotomy i j with hlt | heq | hlt
  · have := hord i j hi' hj' hlt
    have h1 := hs.2
    have h2 := ht.1
    omega
  · exact heq
  · have := hord j i hj' hi' hlt
    have h1 := ht.2
    have h2 := hs.1
    omega

/-! ## Free places -/

/-- The `n` addresses from `b` on are in no span. -/
def Free (l : List Span) (b n : Nat) : Prop :=
  ∀ s ∈ l, ∀ a, b ≤ a → a < b + n → ¬s.Contains a

/-- An interval that is not empty is free of a span that is not empty exactly if it ends before the
span or starts after it. -/
theorem free_iff {l : List Span} (h : Apart l) {b n : Nat} (hn : 0 < n) :
    Free l b n ↔ ∀ s ∈ l, b + n ≤ s.lo ∨ s.hi ≤ b := by
  constructor
  · intro hfree s hs
    have hne := h.nonempty s hs
    by_contra hnot
    refine hfree s hs (max b s.lo) (by omega) (by omega) ⟨by omega, by omega⟩
  · rintro hall s hs a h1 h2 ⟨h3, h4⟩
    have := hall s hs
    omega

/-- Position `pos` of the list is the place for the `n` addresses from `b` on. -/
structure Fits (l : List Span) (pos b n : Nat) : Prop where
  pos_le : pos ≤ l.length
  before : ∀ s ∈ l.take pos, s.hi ≤ b
  after : ∀ s ∈ l.drop pos, b + n ≤ s.lo

theorem Fits.succ {s : Span} {l : List Span} {pos b n : Nat} (hs : s.hi ≤ b)
    (h : Fits l pos b n) : Fits (s :: l) (pos + 1) b n :=
  ⟨Nat.succ_le_succ h.pos_le, List.forall_mem_cons.mpr ⟨hs, h.before⟩, h.after⟩

theorem Fits.free {l : List Span} {pos b n : Nat} (h : Fits l pos b n) : Free l b n := by
  rintro s hs a h1 h2 ⟨h3, h4⟩
  rw [← List.take_append_drop pos l] at hs
  rcases List.mem_append.mp hs with hs | hs
  · have := h.before s hs
    omega
  · have := h.after s hs
    omega

/-- **A span put in its place** keeps the list in order. -/
theorem Fits.apart {b n : Nat} (hn : 0 < n) : ∀ {pos : Nat} {l : List Span}, Apart l →
    Fits l pos b n → Apart (l.insertIdx pos ⟨b, b + n⟩)
  | 0, l, hl, h => hl.cons (by simpa using hn) (by simpa using h.after)
  | pos + 1, [], _, h => absurd h.pos_le (Nat.not_succ_le_zero pos)
  | pos + 1, s :: l, hl, h => by
    obtain ⟨hs, hafter, hl⟩ := hl.of_cons
    obtain ⟨hsb, hbefore⟩ := List.forall_mem_cons.mp h.before
    have hrest : Fits l pos b n := ⟨Nat.le_of_succ_le_succ h.pos_le, hbefore, h.after⟩
    rw [List.insertIdx_succ_cons]
    refine (hrest.apart hn hl).cons hs fun t ht ↦ ?_
    rcases List.eq_or_mem_of_mem_insertIdx ht with rfl | ht
    · exact hsb
    · exact hafter t ht

/-- Move a candidate for `n` addresses up, past every span that is in its way. -/
def firstFit (n : Nat) : List Span → Nat → Nat
  | [], c => c
  | s :: l, c => if c + n ≤ s.lo then c else firstFit n l (max c s.hi)

theorem le_firstFit (n : Nat) : ∀ (l : List Span) (c : Nat), c ≤ firstFit n l c
  | [], _ => le_rfl
  | s :: l, c => by
    rw [firstFit]
    split
    · exact le_rfl
    · have := le_firstFit n l (max c s.hi)
      omega

/-- The candidate stays, or ends up right behind a span. -/
theorem firstFit_eq (n : Nat) : ∀ (l : List Span) (c : Nat),
    firstFit n l c = c ∨ ∃ s ∈ l, firstFit n l c = s.hi
  | [], _ => .inl rfl
  | s :: l, c => by
    rw [firstFit]
    split
    · exact .inl rfl
    · rcases firstFit_eq n l (max c s.hi) with heq | ⟨t, ht, heq⟩
      · rcases Nat.le_total s.hi c with hle | hle
        · exact .inl (heq.trans (Nat.max_eq_left hle))
        · exact .inr ⟨s, List.mem_cons_self, heq.trans (Nat.max_eq_right hle)⟩
      · exact .inr ⟨t, List.mem_cons_of_mem s ht, heq⟩

/-- A candidate that a span is in the way of has to move past it. -/
theorem free_cons_iff {s : Span} {l : List Span} (h : Apart (s :: l)) {c b n : Nat} (hn : 0 < n)
    (hc : s.lo < c + n) : c ≤ b ∧ Free (s :: l) b n ↔ max c s.hi ≤ b ∧ Free l b n := by
  obtain ⟨-, -, hl⟩ := h.of_cons
  rw [free_iff h hn, free_iff hl hn, List.forall_mem_cons]
  constructor
  · rintro ⟨hcb, hs, hrest⟩
    exact ⟨by omega, hrest⟩
  · rintro ⟨hmax, hrest⟩
    exact ⟨by omega, .inr (by omega), hrest⟩

/-- **The first fit is the lowest place.** -/
theorem firstFit_isLeast {n : Nat} (hn : 0 < n) : ∀ {l : List Span} {c : Nat}, Apart l →
    IsLeast {b | c ≤ b ∧ Free l b n} (firstFit n l c) := by
  intro l
  induction l with
  | nil => exact fun _ ↦ ⟨⟨le_rfl, fun s hs ↦ by cases hs⟩, fun b hb ↦ hb.1⟩
  | cons s l ih =>
    intro c h
    obtain ⟨hs, hafter, hl⟩ := h.of_cons
    rw [firstFit]
    split
    · next hc =>
      refine ⟨⟨le_rfl, (free_iff h hn).mpr fun t ht ↦ .inl ?_⟩, fun b hb ↦ hb.1⟩
      rcases List.mem_cons.mp ht with rfl | ht
      · exact hc
      · have := hafter t ht
        omega
    · next hc =>
      have hset : {b | c ≤ b ∧ Free (s :: l) b n} = {b | max c s.hi ≤ b ∧ Free l b n} :=
        Set.ext fun b ↦ free_cons_iff h hn (by omega)
      rw [hset]
      exact ih hl

/-! ## Covered addresses -/

/-- How far the spans cover every address from `a` on, in a list sorted by start. -/
def coveredTo : List Span → Nat → Nat
  | [], a => a
  | s :: l, a => if s.lo ≤ a ∧ a < s.hi then coveredTo l s.hi else coveredTo l a

theorem le_coveredTo : ∀ (l : List Span) (a : Nat), a ≤ coveredTo l a
  | [], _ => le_rfl
  | s :: l, a => by
    rw [coveredTo]
    split
    · have := le_coveredTo l s.hi
      omega
    · exact le_coveredTo l a

theorem coveredTo_of_lt : ∀ {l : List Span} {a : Nat}, (∀ s ∈ l, a < s.lo) → coveredTo l a = a
  | [], _, _ => rfl
  | s :: l, a, h => by
    have hs := h s List.mem_cons_self
    rw [coveredTo, if_neg (by omega), coveredTo_of_lt fun t ht ↦ h t (List.mem_cons_of_mem s ht)]

/-- **The spans cover up to `coveredTo`**, and no further. -/
theorem covers_iff_coveredTo : ∀ {l : List Span} {a e : Nat},
    l.Pairwise (fun s t ↦ s.lo ≤ t.lo) →
      ((∀ x, a ≤ x → x < e → ∃ s ∈ l, s.Contains x) ↔ e ≤ coveredTo l a)
  | [], a, e, _ => by
    simp only [coveredTo, List.not_mem_nil, false_and, exists_false, imp_false]
    constructor
    · intro h
      by_contra hlt
      exact h a le_rfl (by omega)
    · intro h x h1 h2
      omega
  | s :: l, a, e, hsorted => by
    obtain ⟨hfirst, hrest⟩ := List.pairwise_cons.mp hsorted
    have ih := fun b ↦ covers_iff_coveredTo (l := l) (a := b) (e := e) hrest
    rw [coveredTo]
    split
    · next hin =>
      -- the span covers up to its end, and nothing after it
      rw [← ih s.hi]
      constructor
      · intro h x h1 h2
        obtain ⟨t, ht, htx⟩ := h x (by omega) h2
        rcases List.mem_cons.mp ht with rfl | ht
        · exact absurd htx.2 (by omega)
        · exact ⟨t, ht, htx⟩
      · intro h x h1 h2
        by_cases hx : x < s.hi
        · exact ⟨s, List.mem_cons_self, by omega, hx⟩
        · obtain ⟨t, ht, htx⟩ := h x (by omega) h2
          exact ⟨t, List.mem_cons_of_mem s ht, htx⟩
    · next hout =>
      rw [← ih a]
      constructor
      · intro h x h1 h2
        by_cases hlo : s.lo ≤ a
        · obtain ⟨t, ht, htx⟩ := h x h1 h2
          rcases List.mem_cons.mp ht with rfl | ht
          · exact absurd htx.2 (by omega)
          · exact ⟨t, ht, htx⟩
        · -- nothing contains `a`: every span starts after it
          obtain ⟨t, ht, hta⟩ := h a le_rfl (by omega)
          have hle : s.lo ≤ t.lo := by
            rcases List.mem_cons.mp ht with rfl | ht
            · exact le_rfl
            · exact hfirst t ht
          exact absurd hta.1 (by omega)
      · intro h x h1 h2
        obtain ⟨t, ht, htx⟩ := h x h1 h2
        exact ⟨t, List.mem_cons_of_mem s ht, htx⟩

end Span
