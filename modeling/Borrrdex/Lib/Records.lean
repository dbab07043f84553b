import Mathlib.Data.List.Basic

/-!
# Records behind one another

A stretch of memory is filled with records, each of which says how long it is.  `Records` is the
list of the places where they begin; there is none if a record is said to have no length, since then
the next begins where it does.  A loop that goes from record to record (`walk`) ends just if there
is a list, and does for each record of it what it does for one.
-/

set_option autoImplicit false

namespace RecordChain

variable {σ : Type} {size : ℕ → ℕ} {stop : ℕ}

/-- **The records between a place and the end**, by the places where they begin. -/
inductive Records (size : ℕ → ℕ) (stop : ℕ) : ℕ → List ℕ → Prop
  | done {o : ℕ} (h : stop ≤ o) : Records size stop o []
  | record {o : ℕ} {os : List ℕ} (h : o < stop) (hsize : size o ≠ 0)
      (rest : Records size stop (o + size o) os) : Records size stop o (o :: os)

/-- A loop over the records, with so many tests of its condition. -/
def walk (size : ℕ → ℕ) (stop : ℕ) (f : σ → ℕ → σ) : ℕ → ℕ → σ → Option σ
  | 0, _, _ => none
  | tests + 1, o, s => if o < stop then walk size stop f tests (o + size o) (f s o) else some s

/-- The loop ends with the last record. -/
theorem Records.walk_eq {o : ℕ} {os : List ℕ} (h : Records size stop o os) (f : σ → ℕ → σ)
    {tests : ℕ}
    (htests : os.length < tests) (s : σ) : walk size stop f tests o s = some (os.foldl f s) := by
  induction h generalizing tests s with
  | done hle =>
    cases tests with
    | zero => cases htests
    | succ tests => rw [walk, if_neg (Nat.not_lt.mpr hle), List.foldl_nil]
  | record hlt _ _ ih =>
    cases tests with
    | zero => cases htests
    | succ tests =>
      rw [walk, if_pos hlt, List.foldl_cons]
      exact ih (Nat.lt_of_succ_lt_succ htests) _

/-- **A loop that ends has seen the records.** -/
theorem exists_records_of_walk {f : σ → ℕ → σ} {tests o : ℕ} {s s' : σ}
    (h : walk size stop f tests o s = some s') :
    ∃ os, Records size stop o os ∧ s' = os.foldl f s := by
  induction tests generalizing o s with
  | zero => cases h
  | succ tests ih =>
    rw [walk] at h
    split at h
    · rename_i hlt
      obtain ⟨os, hos, heq⟩ := ih h
      refine ⟨o :: os, .record hlt (fun hzero ↦ ?_) hos, heq⟩
      -- a record without a length would be followed by itself, and its list has one with a length
      rw [hzero, Nat.add_zero] at hos
      cases hos with
      | done hle => exact absurd hlt (Nat.not_lt.mpr hle)
      | record _ hsize _ => exact hsize hzero
    · rename_i hge
      exact ⟨[], .done (Nat.le_of_not_lt hge), (Option.some.inj h).symm⟩

end RecordChain
