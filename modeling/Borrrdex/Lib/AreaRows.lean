import Mathlib.Data.List.Basic
import Mathlib.Tactic

/-!
# Rows of areas

`InRow least len lo l hi` says that the areas that begin at the addresses of `l`, as long as `len`
says, lie one behind the other from `lo` to `hi`, none of them shorter than `least`.  An area may be
cut in two (`InRow.cut`), and two neighbours be joined (`InRow.join`).
-/

set_option autoImplicit false

namespace AreaRows

variable {least lo hi a b k : ℕ} {len len' : ℕ → ℕ} {l u v : List ℕ}

/-- The areas lie one behind the other. -/
def InRow (least : ℕ) (len : ℕ → ℕ) : ℕ → List ℕ → ℕ → Prop
  | lo, [], hi => lo = hi
  | lo, a :: l, hi => a = lo ∧ least ≤ len a ∧ InRow least len (lo + len a) l hi

theorem inRow_append :
    InRow least len lo (u ++ v) hi ↔
      ∃ mid, InRow least len lo u mid ∧ InRow least len mid v hi := by
  induction u generalizing lo with
  | nil => simp [InRow]
  | cons a u ih =>
    rw [List.cons_append, InRow, ih]
    simp only [InRow]
    constructor
    · rintro ⟨ha, hleast, mid, hu, hv⟩
      exact ⟨mid, ⟨ha, hleast, hu⟩, hv⟩
    · rintro ⟨mid, ⟨ha, hleast, hu⟩, hv⟩
      exact ⟨ha, hleast, mid, hu, hv⟩

theorem InRow.congr (h : InRow least len lo l hi) (hlen : ∀ a ∈ l, len' a = len a) :
    InRow least len' lo l hi := by
  induction l generalizing lo with
  | nil => exact h
  | cons a l ih =>
    obtain ⟨ha, hleast, hrest⟩ := h
    obtain ⟨hfirst, hlen⟩ := List.forall_mem_cons.mp hlen
    rw [InRow, hfirst]
    exact ⟨ha, hleast, ih hrest hlen⟩

theorem InRow.le (h : InRow least len lo l hi) : lo ≤ hi := by
  induction l generalizing lo with
  | nil => exact h.le
  | cons a l ih => exact (Nat.le_add_right _ _).trans (ih h.2.2)

/-- Where an area lies. -/
theorem InRow.inside (h : InRow least len lo l hi) (ha : a ∈ l) :
    lo ≤ a ∧ least ≤ len a ∧ a + len a ≤ hi := by
  obtain ⟨u, v, rfl⟩ := List.append_of_mem ha
  obtain ⟨mid, hu, rfl, hleast, hv⟩ := inRow_append.mp h
  exact ⟨hu.le, hleast, hv.le⟩

/-- Each area ends before the ones behind it. -/
theorem InRow.pairwise (h : InRow least len lo l hi) : l.Pairwise fun a b ↦ a + len a ≤ b := by
  induction l generalizing lo with
  | nil => exact .nil
  | cons a l ih =>
    obtain ⟨rfl, -, hrest⟩ := h
    exact .cons (fun b hb ↦ (hrest.inside hb).1) (ih hrest)

theorem InRow.nodup (h : InRow least len lo l hi) (hpos : 0 < least) : l.Nodup := by
  induction l generalizing lo with
  | nil => exact .nil
  | cons a l ih =>
    obtain ⟨rfl, hleast, hrest⟩ := h
    refine List.nodup_cons.mpr ⟨fun ha ↦ ?_, ih hrest⟩
    have hlo := (hrest.inside ha).1
    omega

/-- Two areas do not overlap. -/
theorem InRow.apart (h : InRow least len lo l hi) (ha : a ∈ l) (hb : b ∈ l) (hne : a ≠ b) :
    a + len a ≤ b ∨ b + len b ≤ a := by
  obtain ⟨u, v, rfl⟩ := List.append_of_mem ha
  obtain ⟨-, hav, hcross⟩ := List.pairwise_append.mp h.pairwise
  rcases List.mem_append.mp hb with hb | hb
  · exact .inr (hcross b hb a List.mem_cons_self)
  · rcases List.mem_cons.mp hb with rfl | hb
    · exact absurd rfl hne
    · exact .inl ((List.pairwise_cons.mp hav).1 b hb)

/-- The area behind another one. -/
theorem InRow.next_eq (h : InRow least len lo (u ++ a :: b :: v) hi) : b = a + len a := by
  obtain ⟨mid, -, rfl, -, rfl, -⟩ := inRow_append.mp h
  rfl

/-- **Two neighbours are joined.** -/
theorem InRow.join (h : InRow least len lo (u ++ a :: b :: v) hi) (ha : len' a = len a + len b)
    (hlen : ∀ x ∈ u ++ v, len' x = len x) : InRow least len' lo (u ++ a :: v) hi := by
  obtain ⟨mid, hu, rfl, hleast, rfl, -, hv⟩ := inRow_append.mp h
  refine inRow_append.mpr ⟨a, hu.congr fun x hx ↦ hlen x (List.mem_append_left _ hx), rfl,
    by omega, ?_⟩
  rw [ha, ← Nat.add_assoc]
  exact hv.congr fun x hx ↦ hlen x (List.mem_append_right _ hx)

/-- **An area is cut in two.** -/
theorem InRow.cut (h : InRow least len lo (u ++ a :: v) hi) (hk : least ≤ k)
    (hrest : k + least ≤ len a) (ha : len' a = k) (hb : len' (a + k) = len a - k)
    (hlen : ∀ x ∈ u ++ v, len' x = len x) : InRow least len' lo (u ++ a :: (a + k) :: v) hi := by
  obtain ⟨mid, hu, rfl, -, hv⟩ := inRow_append.mp h
  have hend : a + k + (len a - k) = a + len a := by omega
  refine inRow_append.mpr ⟨a, hu.congr fun x hx ↦ hlen x (List.mem_append_left _ hx), rfl,
    ha ▸ hk, ?_⟩
  rw [ha, InRow, hb, hend]
  exact ⟨rfl, by omega, hv.congr fun x hx ↦ hlen x (List.mem_append_right _ hx)⟩

end AreaRows
