import Mathlib.Data.List.Basic
import Mathlib.Data.List.Nodup

/-!
# Links in both directions

The elements of a list that are linked in memory know what is before and what is behind them, and
`0` where there is nothing.  `Links` is about a part of such a list, between what is before it and
what is behind it, so that a list can be cut anywhere (`links_append`).  The two things that are
done to a list are done by four links: `LinkedList.insert` puts an element between two parts, and
`LinkedList.remove` takes one out.
-/

set_option autoImplicit false

universe u

namespace DoubleLinks

variable {α : Type u} {prev next prev' next' : α → α} {p q a x : α} {l u v : List α}

/-- The elements are linked, with `p` before them and `q` behind. -/
def Links (prev next : α → α) : α → List α → α → Prop
  | _, [], _ => True
  | p, a :: l, q => prev a = p ∧ next a = l.headD q ∧ Links prev next a l q

theorem headD_append (u v : List α) (q : α) : (u ++ v).headD q = u.headD (v.headD q) := by
  cases u <;> rfl

theorem getLastD_append (u v : List α) (p : α) :
    (u ++ v).getLastD p = v.getLastD (u.getLastD p) := by
  induction u generalizing p with
  | nil => rfl
  | cons a u ih => rw [List.cons_append, List.getLastD_cons, List.getLastD_cons, ih]

/-- **A list that is linked may be cut anywhere.** -/
theorem links_append :
    Links prev next p (u ++ v) q ↔
      Links prev next p u (v.headD q) ∧ Links prev next (u.getLastD p) v q := by
  induction u generalizing p with
  | nil => simp [Links]
  | cons a u ih =>
    rw [List.cons_append, Links, Links, ih, headD_append, List.getLastD_cons]
    tauto

theorem links_concat :
    Links prev next p (u ++ [x]) q ↔
      Links prev next p u x ∧ prev x = u.getLastD p ∧ next x = q := by
  rw [links_append]
  simp [Links]

theorem Links.congr (h : Links prev next p l q) (hprev : ∀ a ∈ l, prev' a = prev a)
    (hnext : ∀ a ∈ l, next' a = next a) : Links prev' next' p l q := by
  induction l generalizing p with
  | nil => exact trivial
  | cons a l ih =>
    obtain ⟨hp, hn, hrest⟩ := h
    obtain ⟨hprev, hprevs⟩ := List.forall_mem_cons.mp hprev
    obtain ⟨hnext, hnexts⟩ := List.forall_mem_cons.mp hnext
    exact ⟨hprev.trans hp, hnext.trans hn, ih hrest hprevs hnexts⟩

/-- Something else comes to be behind the list: only the link of the last element changes. -/
theorem Links.setBehind {q' : α} (h : Links prev next p l q) (hnodup : l.Nodup)
    (hprev : ∀ b ∈ l, prev' b = prev b)
    (hnext : ∀ b ∈ l, (b = l.getLastD p → next' b = q') ∧ (b ≠ l.getLastD p → next' b = next b)) :
    Links prev' next' p l q' := by
  rcases List.eq_nil_or_concat l with rfl | ⟨u, x, rfl⟩
  · exact trivial
  · rw [List.concat_eq_append] at h hnodup hprev hnext ⊢
    have hlast : (u ++ [x]).getLastD p = x := by rw [getLastD_append]; rfl
    rw [hlast] at hnext
    rw [links_concat] at h ⊢
    have hx : x ∈ u ++ [x] := List.mem_append_right u List.mem_cons_self
    refine ⟨h.1.congr (fun b hb ↦ hprev b (List.mem_append_left _ hb)) fun b hb ↦ ?_,
      (hprev x hx).trans h.2.1, (hnext x hx).1 rfl⟩
    have hne : b ≠ x := by
      rintro rfl
      exact (List.nodup_append.mp hnodup).2.2 b hb b List.mem_cons_self rfl
    exact (hnext b (List.mem_append_left _ hb)).2 hne

/-- Something else comes to be before the list: only the link of the first element changes. -/
theorem Links.setBefore {p' : α} (h : Links prev next p l q) (hnodup : l.Nodup)
    (hprev : ∀ b ∈ l, (b = l.headD q → prev' b = p') ∧ (b ≠ l.headD q → prev' b = prev b))
    (hnext : ∀ b ∈ l, next' b = next b) : Links prev' next' p' l q := by
  cases l with
  | nil => exact trivial
  | cons a l =>
    obtain ⟨hp, hn, hrest⟩ := h
    obtain ⟨ha, hnodup⟩ := List.nodup_cons.mp hnodup
    obtain ⟨hprev, hprevs⟩ := List.forall_mem_cons.mp hprev
    obtain ⟨hnext, hnexts⟩ := List.forall_mem_cons.mp hnext
    refine ⟨hprev.1 rfl, hnext.trans hn, hrest.congr (fun b hb ↦ (hprevs b hb).2 ?_) hnexts⟩
    rintro rfl
    exact ha hb

/-! ## Whole lists -/

variable [Zero α]

/-- The list is linked from end to end. -/
structure LinkedList (prev next : α → α) (l : List α) : Prop where
  links : Links prev next 0 l 0
  nodup : l.Nodup
  ne_zero : ∀ a ∈ l, a ≠ 0

theorem linkedList_nil (prev next : α → α) : LinkedList prev next [] :=
  ⟨trivial, List.nodup_nil, fun _ h ↦ absurd h List.not_mem_nil⟩

theorem LinkedList.singleton (hprev : prev a = 0) (hnext : next a = 0) (ha : a ≠ 0) :
    LinkedList prev next [a] :=
  ⟨⟨hprev, hnext, trivial⟩, List.nodup_singleton a, fun b hb ↦ by
    rw [List.mem_singleton.mp hb]
    exact ha⟩

theorem LinkedList.congr (h : LinkedList prev next l) (hprev : ∀ a ∈ l, prev' a = prev a)
    (hnext : ∀ a ∈ l, next' a = next a) : LinkedList prev' next' l :=
  ⟨h.links.congr hprev hnext, h.nodup, h.ne_zero⟩

/-- What an element is linked to. -/
theorem LinkedList.at (h : LinkedList prev next (u ++ a :: v)) :
    prev a = u.getLastD 0 ∧ next a = v.headD 0 := by
  obtain ⟨-, hprev, hnext, -⟩ := links_append.mp h.links
  exact ⟨hprev, hnext⟩

theorem LinkedList.headD_ne (h : LinkedList prev next (u ++ v)) {b : α} (hb : b ∈ u) :
    b ≠ v.headD 0 := by
  cases v with
  | nil => exact h.ne_zero b (List.mem_append_left _ hb)
  | cons c v => exact (List.nodup_append.mp h.nodup).2.2 b hb c List.mem_cons_self

theorem LinkedList.getLastD_ne (h : LinkedList prev next (u ++ v)) {b : α} (hb : b ∈ v) :
    b ≠ u.getLastD 0 := by
  rcases List.eq_nil_or_concat u with rfl | ⟨u, c, rfl⟩
  · exact h.ne_zero b (List.mem_append_right _ hb)
  · rw [List.concat_eq_append] at h ⊢
    rw [getLastD_append]
    exact ((List.nodup_append.mp h.nodup).2.2 c (List.mem_append_right _ List.mem_cons_self) b
      hb).symm

/-- **An element is put in** behind `x` and before `y`, either of which may be missing. -/
theorem LinkedList.insert {y : α} (h : LinkedList prev next (u ++ v)) (hx : u.getLastD 0 = x)
    (hy : v.headD 0 = y) (ha : a ∉ u ++ v) (ha0 : a ≠ 0) (haprev : prev' a = x)
    (hanext : next' a = y)
    (hprev : ∀ b ∈ u ++ v, (b = y → prev' b = a) ∧ (b ≠ y → prev' b = prev b))
    (hnext : ∀ b ∈ u ++ v, (b = x → next' b = a) ∧ (b ≠ x → next' b = next b)) :
    LinkedList prev' next' (u ++ a :: v) := by
  subst hx hy
  obtain ⟨hu, hv⟩ := links_append.mp h.links
  obtain ⟨hnodupu, hnodupv, -⟩ := List.nodup_append.mp h.nodup
  refine ⟨links_append.mpr ⟨hu.setBehind hnodupu (fun b hb ↦ ?_) fun b hb ↦ ?_, haprev, hanext,
    hv.setBefore hnodupv (fun b hb ↦ ?_) fun b hb ↦ ?_⟩, ?_, ?_⟩
  · exact (hprev b (List.mem_append_left _ hb)).2 (h.headD_ne hb)
  · exact hnext b (List.mem_append_left _ hb)
  · exact hprev b (List.mem_append_right _ hb)
  · exact (hnext b (List.mem_append_right _ hb)).2 (h.getLastD_ne hb)
  · exact List.nodup_middle.mpr (List.nodup_cons.mpr ⟨ha, h.nodup⟩)
  · intro b hb
    rcases List.mem_cons.mp (List.perm_middle.mem_iff.mp hb) with rfl | hb
    · exact ha0
    · exact h.ne_zero b hb

/-- **An element is taken out**: what is before it is linked to what is behind it. -/
theorem LinkedList.remove (h : LinkedList prev next (u ++ a :: v))
    (hprev : ∀ b ∈ u ++ v, (b = next a → prev' b = prev a) ∧ (b ≠ next a → prev' b = prev b))
    (hnext : ∀ b ∈ u ++ v, (b = prev a → next' b = next a) ∧ (b ≠ prev a → next' b = next b)) :
    LinkedList prev' next' (u ++ v) := by
  obtain ⟨hx, hy⟩ := h.at
  rw [hx, hy] at hprev hnext
  obtain ⟨hu, -, -, hv⟩ := links_append.mp h.links
  obtain ⟨ha, hnodup⟩ := List.nodup_cons.mp (List.nodup_middle.mp h.nodup)
  have hne0 : ∀ b ∈ u ++ v, b ≠ 0 := fun b hb ↦
    h.ne_zero b (List.perm_middle.mem_iff.mpr (List.mem_cons_of_mem a hb))
  obtain ⟨hnodupu, hnodupv, hdisj⟩ := List.nodup_append.mp hnodup
  refine ⟨links_append.mpr ⟨hu.setBehind hnodupu (fun b hb ↦ ?_) fun b hb ↦ ?_,
    hv.setBefore hnodupv (fun b hb ↦ ?_) fun b hb ↦ ?_⟩, hnodup, hne0⟩
  · refine (hprev b (List.mem_append_left _ hb)).2 ?_
    cases v with
    | nil => exact hne0 b (List.mem_append_left _ hb)
    | cons c v => exact hdisj b hb c List.mem_cons_self
  · exact hnext b (List.mem_append_left _ hb)
  · exact hprev b (List.mem_append_right _ hb)
  · refine (hnext b (List.mem_append_right _ hb)).2 ?_
    rcases List.eq_nil_or_concat u with rfl | ⟨u, c, rfl⟩
    · exact hne0 b (List.mem_append_right _ hb)
    · rw [List.concat_eq_append] at hdisj ⊢
      rw [getLastD_append]
      exact (hdisj c (List.mem_append_right _ List.mem_cons_self) b hb).symm

end DoubleLinks
