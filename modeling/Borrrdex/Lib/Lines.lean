import Mathlib.Data.List.Sort

/-!
# Lines

A text of lines has a separator behind each of them, and may have something without a separator at
its end (`exists_joined`).  `placed` gives each line the position where it begins; a text determines
the line at a position (`eq_of_mem_placed`).
-/

set_option autoImplicit false

namespace Lines

universe u

variable {α : Type u} (sep : α)

/-- The text of some lines. -/
def joined (lines : List (List α)) : List α := lines.flatMap (· ++ [sep])

/-- The lines and where they begin, from a position on. -/
def placed : ℕ → List (List α) → List (ℕ × List α)
  | _, [] => []
  | o, l :: ls => (o, l) :: placed (o + l.length + 1) ls

@[simp] theorem joined_nil : joined sep ([] : List (List α)) = [] := rfl

theorem joined_cons (l : List α) (ls : List (List α)) :
    joined sep (l :: ls) = l ++ sep :: joined sep ls := by
  rw [joined, List.flatMap_cons, List.append_assoc]
  rfl

theorem joined_append (ls ls' : List (List α)) :
    joined sep (ls ++ ls') = joined sep ls ++ joined sep ls' :=
  List.flatMap_append

/-- Every text is one of lines, with something at its end. -/
theorem exists_joined [DecidableEq α] (s : List α) : ∃ lines tail,
    s = joined sep lines ++ tail ∧ (∀ l ∈ lines, sep ∉ l) ∧ sep ∉ tail := by
  induction s with
  | nil => exact ⟨[], [], rfl, List.forall_mem_nil _, List.not_mem_nil⟩
  | cons c s ih =>
    obtain ⟨lines, tail, rfl, hlines, htail⟩ := ih
    by_cases hc : c = sep
    · refine ⟨[] :: lines, tail, ?_, List.forall_mem_cons.mpr ⟨List.not_mem_nil, hlines⟩, htail⟩
      rw [joined_cons, hc]
      rfl
    · have hcons : ∀ l : List α, sep ∉ l → sep ∉ c :: l := fun l hl hmem ↦
        (List.mem_cons.mp hmem).elim (fun heq ↦ hc heq.symm) hl
      match lines, hlines with
      | [], _ => exact ⟨[], c :: tail, rfl, List.forall_mem_nil _, hcons tail htail⟩
      | l :: ls, hlines =>
        obtain ⟨hl, hls⟩ := List.forall_mem_cons.mp hlines
        refine ⟨(c :: l) :: ls, tail, ?_, List.forall_mem_cons.mpr ⟨hcons l hl, hls⟩, htail⟩
        rw [joined_cons, joined_cons]
        rfl

variable {sep} {o : ℕ} {l l' : List α} {ls : List (List α)}

variable (sep) in
/-- What is before a line and behind it. -/
theorem exists_append_of_mem_placed {p : ℕ × List α} (h : p ∈ placed o ls) :
    ∃ before after, ls = before ++ p.2 :: after ∧ p.1 = o + (joined sep before).length := by
  induction ls generalizing o with
  | nil => cases h
  | cons l ls ih =>
    rcases List.mem_cons.mp h with rfl | hrest
    · exact ⟨[], ls, rfl, rfl⟩
    · obtain ⟨before, after, rfl, hp⟩ := ih hrest
      refine ⟨l :: before, after, rfl, hp.trans ?_⟩
      rw [joined_cons, List.length_append, List.length_cons]
      omega

theorem le_of_mem_placed {p : ℕ × List α} (h : p ∈ placed o ls) : o ≤ p.1 := by
  induction ls generalizing o with
  | nil => cases h
  | cons l ls ih =>
    rcases List.mem_cons.mp h with rfl | hrest
    · exact Nat.le_refl o
    · have := ih hrest
      omega

/-- Each line begins behind the ones before it. -/
theorem pairwise_placed (o : ℕ) (ls : List (List α)) :
    (placed o ls).Pairwise fun p q ↦ p.1 < q.1 := by
  induction ls generalizing o with
  | nil => exact List.Pairwise.nil
  | cons l ls ih =>
    refine List.pairwise_cons.mpr ⟨fun p hp ↦ ?_, ih _⟩
    have := le_of_mem_placed hp
    omega

/-- **A text determines its first line.** -/
theorem eq_of_append_cons_eq {r r' : List α} (hl : sep ∉ l) (hl' : sep ∉ l')
    (h : l ++ sep :: r = l' ++ sep :: r') : l = l' ∧ r = r' := by
  induction l generalizing l' with
  | nil =>
    cases l' with
    | nil => exact ⟨rfl, (List.cons.inj h).2⟩
    | cons c l' => exact absurd (List.mem_cons.mpr (.inl (List.cons.inj h).1)) hl'
  | cons c l ih =>
    cases l' with
    | nil => exact absurd (List.mem_cons.mpr (.inl (List.cons.inj h).1.symm)) hl
    | cons c' l' =>
      obtain ⟨rfl, hrest⟩ := List.cons.inj h
      obtain ⟨rfl, hr⟩ := ih (fun hmem ↦ hl (List.mem_cons_of_mem _ hmem))
        (fun hmem ↦ hl' (List.mem_cons_of_mem _ hmem)) hrest
      exact ⟨rfl, hr⟩

/-- **Of two texts that begin alike, the lines at one position are the same.** -/
theorem eq_of_mem_placed {ls' : List (List α)} {p q : ℕ × List α} {r r' : List α}
    (hp : p ∈ placed 0 ls) (hq : q ∈ placed 0 ls') (hls : ∀ l ∈ ls, sep ∉ l)
    (hls' : ∀ l ∈ ls', sep ∉ l)
    (h : joined sep ls ++ r = joined sep ls' ++ r') (hpq : p.1 = q.1) : p = q := by
  obtain ⟨before, after, rfl, hat⟩ := exists_append_of_mem_placed sep hp
  obtain ⟨before', after', rfl, hat'⟩ := exists_append_of_mem_placed sep hq
  rw [joined_append, joined_append, List.append_assoc, List.append_assoc] at h
  have hrest := (List.append_inj h (by omega)).2
  rw [joined_cons, joined_cons, List.append_assoc, List.append_assoc] at hrest
  have hmem : ∀ (l : List α) before after, l ∈ before ++ l :: after := fun l before after ↦
    List.mem_append_right _ List.mem_cons_self
  exact Prod.ext hpq (eq_of_append_cons_eq (hls _ (hmem _ _ _)) (hls' _ (hmem _ _ _)) hrest).1

/-- What stands at increasing positions is determined by what there is. -/
theorem eq_of_pairwise {β : Type u} {s t : List (ℕ × β)} (hs : s.Pairwise fun p q ↦ p.1 < q.1)
    (ht : t.Pairwise fun p q ↦ p.1 < q.1) (h : ∀ p, p ∈ s ↔ p ∈ t) : s = t := by
  have _irrefl : Std.Irrefl fun p q : ℕ × β ↦ p.1 < q.1 := ⟨fun p ↦ Nat.lt_irrefl p.1⟩
  have _antisymm : Std.Antisymm fun p q : ℕ × β ↦ p.1 < q.1 :=
    ⟨fun _ _ hlt hgt ↦ absurd hgt (Nat.lt_asymm hlt)⟩
  exact hs.eq_of_mem_iff ht h

end Lines
