import Mathlib.Data.List.Basic
import Mathlib.Data.Option.Basic

/-!
# Contexts of one's own

A party enters with a context, changes it, and leaves.  Were there a processor for every party, this
would be all there is to it: `replay` goes through the events of them all, one after the other.
`replay_own` says that each party then has what its own events alone make of its context.

A system that shares out few processors among many parties is right if its runs can be replayed.
-/

set_option autoImplicit false

universe u v

namespace OwnContexts

/-- What a party does. -/
inductive Event (ι : Type u) (κ : Type v)
  | enter (t : ι) (k : κ)
  | exec (t : ι) (f : κ → κ)
  | leave (t : ι)

variable {ι : Type u} {κ : Type v}

/-- Who does it. -/
def Event.party : Event ι κ → ι
  | enter t _ | exec t _ | leave t => t

/-- What becomes of the context of the party. -/
def Event.own : Option κ → Event ι κ → Option κ
  | _, enter _ k => some k
  | k, exec _ f => k.map f
  | _, leave _ => none

/-- One enters who is not there, and does anything else while being there. -/
def Event.possible (k : Option κ) : Event ι κ → Bool
  | enter .. => k.isNone
  | exec .. | leave _ => k.isSome

variable [DecidableEq ι]

/-- The event with all contexts. -/
def Event.apply (contexts : ι → Option κ) (e : Event ι κ) : Option (ι → Option κ) :=
  if e.possible (contexts e.party) then
    some (Function.update contexts e.party (e.own (contexts e.party)))
  else none

/-- Events, one after the other. -/
def replay (contexts : ι → Option κ) (events : List (Event ι κ)) : Option (ι → Option κ) :=
  events.foldlM Event.apply contexts

variable {contexts contexts' : ι → Option κ} {e : Event ι κ}

@[simp] theorem replay_nil : replay contexts ([] : List (Event ι κ)) = some contexts := rfl

@[simp] theorem replay_append (events events' : List (Event ι κ)) :
    replay contexts (events ++ events') =
      (replay contexts events).bind (replay · events') := by
  rw [replay, List.foldlM_append]
  rfl

theorem replay_cons (events : List (Event ι κ)) :
    replay contexts (e :: events) = (e.apply contexts).bind (replay · events) := rfl

theorem replay_singleton : replay contexts [e] = e.apply contexts := by
  rw [replay_cons]
  cases e.apply contexts <;> rfl

theorem apply_eq_some_iff : e.apply contexts = some contexts' ↔
    e.possible (contexts e.party) ∧
      contexts' = Function.update contexts e.party (e.own (contexts e.party)) := by
  rw [Event.apply]
  split_ifs with h
  · rw [Option.some.injEq, and_iff_right h, eq_comm]
  · exact iff_of_false (by simp) fun hand ↦ h hand.1

/-- Some that are there leave together. -/
theorem replay_leave {parties : List ι} (hnodup : parties.Nodup)
    (hthere : ∀ t ∈ parties, (contexts t).isSome) :
    replay contexts (parties.map Event.leave) =
      some fun t ↦ if t ∈ parties then none else contexts t := by
  induction parties generalizing contexts with
  | nil => simp
  | cons t parties ih =>
    obtain ⟨hnotMem, hnodup⟩ := List.nodup_cons.mp hnodup
    have hfirst : (Event.leave t : Event ι κ).apply contexts =
        some (Function.update contexts t none) :=
      apply_eq_some_iff.mpr ⟨hthere t List.mem_cons_self, rfl⟩
    have hrest : ∀ u ∈ parties, (Function.update contexts t none u).isSome := fun u hu ↦ by
      rw [Function.update_of_ne (ne_of_mem_of_not_mem hu hnotMem)]
      exact hthere u (List.mem_cons_of_mem t hu)
    rw [List.map_cons, replay_cons, hfirst, Option.bind_some, ih hnodup hrest]
    congr 1
    funext u
    by_cases hut : u = t
    · subst hut
      simp
    · simp [hut]

/-- **A party has what its own events make of its context.** -/
theorem replay_own {events : List (Event ι κ)} (h : replay contexts events = some contexts')
    (t : ι) : contexts' t = (events.filter (·.party = t)).foldl Event.own (contexts t) := by
  induction events generalizing contexts with
  | nil =>
    cases h
    rfl
  | cons e events ih =>
    rw [replay_cons] at h
    obtain ⟨middle, hfirst, hrest⟩ := Option.bind_eq_some_iff.mp h
    obtain ⟨-, rfl⟩ := apply_eq_some_iff.mp hfirst
    rw [ih hrest, List.filter_cons]
    by_cases hparty : e.party = t
    · simp [hparty]
    · simp [hparty, Function.update_of_ne (Ne.symm hparty)]

end OwnContexts
