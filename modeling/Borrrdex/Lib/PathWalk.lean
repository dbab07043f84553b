import Mathlib.Data.Fintype.Card
import Mathlib.Logic.Relation
import Mathlib.Tactic

/-!
# Walking a path through directories and links

A `Graph` is a set of nodes with a lookup: each node is a directory, a file, or a link with a list
of components for a target, and `start` says where the target of a link is walked from.  `walk` is
the obvious recursion, and records what it looks up and which links it follows.  Its fuel is the
depth to which links may be nested in the targets of links; what it answers does not depend on it
(`walk_mono`).

Two questions are settled here for every graph.

* **When does a walk end?**  `Meets` lists the links a walk comes to, and `Nested` those that come
  up while the target of one is walked.  On a finite graph a walk ends exactly when no link it
  leads to is nested in itself (`ends_iff_not_cyclic`).
* **When do two graphs that differ in `start` give the same walk?**  Exactly when they agree on
  every link followed (`same_walk_iff`).
-/

set_option autoImplicit false

namespace PathWalk

variable {N C : Type}

/-- What a node is to a walk.  The target of a link may be unreadable. -/
inductive Kind (C : Type)
  | directory
  | file
  | link (target : Option (List C))

/-- A lookup on nodes, and where the target of a link found in a directory is walked from. -/
structure Graph (N C : Type) where
  kind : N → Kind C
  find : N → C → Option N
  start : N → N → N

/-- What a walk does. -/
inductive Event (N C : Type)
  | look (dir : N) (name : C)
  | follow (link dir : N)
deriving DecidableEq

/-- The node reached, if any, and what was done on the way. -/
abbrev Outcome (N C : Type) := Option N × List (Event N C)

namespace Graph

variable (G : Graph N C)

/-- What the node `n` found in `d` stands for: itself, or, for a link that is to be followed, what
`go` makes of its target. -/
def arrive (go : N → List C → Option (Outcome N C)) (follow : Bool) (d n : N) :
    Option (Outcome N C) :=
  match G.kind n, follow with
  | .link none, true => some (none, [.follow n d])
  | .link (some cs), true => (go (G.start n d) cs).map fun o ↦ (o.1, .follow n d :: o.2)
  | _, _ => some (some n, [])

/-- What is left to do at the node a component stands for: `go` on from a directory, and end at
anything else, in failure if this was not the last component. -/
def proceed (go : N → Option (Outcome N C)) (last : Bool) (o : Outcome N C) :
    Option (Outcome N C) :=
  match o.1 with
  | none => some o
  | some m =>
    match G.kind m with
    | .directory => (go m).map fun o' ↦ (o'.1, o.2 ++ o'.2)
    | _ => some (if last then some m else none, o.2)

/-- A walk whose nested walks are done by `go`.  A link is followed unless it is the last component
and `follow` is off. -/
def walkWith (go : N → List C → Option (Outcome N C)) (follow : Bool) :
    N → List C → Option (Outcome N C)
  | d, [] => some (some d, [])
  | d, c :: cs =>
    match G.find d c with
    | none => some (none, [.look d c])
    | some n =>
      ((G.arrive go (follow || !cs.isEmpty) d n).bind
        (G.proceed (fun m ↦ walkWith go follow m cs) cs.isEmpty)).map
          fun o ↦ (o.1, .look d c :: o.2)

/-- The walk along `cs` from `d`, with links nested less than `fuel` deep. -/
def walk : ℕ → Bool → N → List C → Option (Outcome N C)
  | 0, _, _, _ => none
  | fuel + 1, follow, d, cs => G.walkWith (walk fuel true) follow d cs

/-- The walk ends, with this outcome. -/
def Ends (follow : Bool) (d : N) (cs : List C) (o : Outcome N C) : Prop :=
  ∃ fuel, G.walk fuel follow d cs = some o

variable {G} {go go' : N → List C → Option (Outcome N C)} {f : Bool} {d n : N} {c : C}
  {cs : List C} {o : Outcome N C}

theorem arrive_link {cs' : List C} (hk : G.kind n = .link (some cs')) :
    G.arrive go true d n = (go (G.start n d) cs').map fun o ↦ (o.1, .follow n d :: o.2) := by
  simp only [arrive, hk]

theorem arrive_of_not_link (hk : ∀ t, G.kind n ≠ .link t) :
    G.arrive go f d n = some (some n, []) := by
  unfold arrive
  cases h : G.kind n with
  | directory => rfl
  | file => rfl
  | link t => exact absurd h (hk t)

/-- A component that is found is walked to, and then the rest from there. -/
theorem walkWith_cons (hfind : G.find d c = some n) :
    G.walkWith go f d (c :: cs) =
      ((G.arrive go (f || !cs.isEmpty) d n).bind
        (G.proceed (fun m ↦ G.walkWith go f m cs) cs.isEmpty)).map
          fun o ↦ (o.1, .look d c :: o.2) := by
  rw [walkWith, hfind]

/-! ## The answer does not depend on the fuel -/

theorem arrive_mono (hgo : ∀ d cs o, go d cs = some o → go' d cs = some o)
    (h : G.arrive go f d n = some o) : G.arrive go' f d n = some o := by
  unfold arrive at h ⊢
  split at h
  · exact h
  · obtain ⟨o', ho', rfl⟩ := Option.map_eq_some_iff.mp h
    rw [hgo _ _ _ ho']
    rfl
  · rename_i h₁ h₂
    exact h

theorem proceed_mono {k k' : N → Option (Outcome N C)} {last : Bool} {o' : Outcome N C}
    (hk : ∀ m o, k m = some o → k' m = some o) (h : G.proceed k last o = some o') :
    G.proceed k' last o = some o' := by
  unfold proceed at h ⊢
  cases hm : o.1 with
  | none => rwa [hm] at h
  | some m =>
    rw [hm] at h
    cases hkind : G.kind m with
    | directory =>
      simp only [hkind] at h ⊢
      obtain ⟨o'', ho'', rfl⟩ := Option.map_eq_some_iff.mp h
      rw [hk m _ ho'']
      rfl
    | file => simpa only [hkind] using h
    | link t => simpa only [hkind] using h

theorem walkWith_mono (hgo : ∀ d cs o, go d cs = some o → go' d cs = some o) :
    ∀ d o, G.walkWith go f d cs = some o → G.walkWith go' f d cs = some o := by
  induction cs with
  | nil => exact fun d o h ↦ h
  | cons c cs ih =>
    intro d o h
    cases hfind : G.find d c with
    | none => rwa [walkWith, hfind] at h ⊢
    | some n =>
      rw [walkWith_cons hfind] at h ⊢
      obtain ⟨o₁, h₁, rfl⟩ := Option.map_eq_some_iff.mp h
      obtain ⟨o₂, h₂, h₃⟩ := Option.bind_eq_some_iff.mp h₁
      rw [arrive_mono hgo h₂, Option.bind_some, proceed_mono ih h₃]
      rfl

/-- **More fuel changes nothing.** -/
theorem walk_mono {fuel fuel' : ℕ} (hle : fuel ≤ fuel') :
    ∀ f d cs o, G.walk fuel f d cs = some o → G.walk fuel' f d cs = some o := by
  induction fuel generalizing fuel' with
  | zero => exact fun f d cs o h ↦ by cases h
  | succ fuel ih =>
    intro f d cs o h
    obtain ⟨k, rfl⟩ : ∃ k, fuel' = k + 1 := ⟨fuel' - 1, by omega⟩
    exact walkWith_mono (fun d cs o ↦ ih (by omega) true d cs o) d o h

/-- A walk has one outcome. -/
theorem Ends.unique {o' : Outcome N C} (h : G.Ends f d cs o) (h' : G.Ends f d cs o') : o = o' := by
  obtain ⟨n₁, h₁⟩ := h
  obtain ⟨n₂, h₂⟩ := h'
  have e₁ := walk_mono (le_max_left n₁ n₂) f d cs o h₁
  have e₂ := walk_mono (le_max_right n₁ n₂) f d cs o' h₂
  exact Option.some.inj (e₁.symm.trans e₂)

/-- A walk goes on from where its first component leads. -/
theorem Ends.cons {o₁ : Outcome N C} {k : ℕ} (hfind : G.find d c = some n)
    (harr : G.arrive (G.walk k true) (f || !cs.isEmpty) d n = some o₁)
    (hrest : ∀ m, o₁.1 = some m → G.kind m = .directory → ∃ o, G.Ends f m cs o) :
    ∃ o, G.Ends f d (c :: cs) o := by
  have main : ∃ k' ≥ k, ∃ o, G.proceed (fun m ↦ G.walk (k' + 1) f m cs) cs.isEmpty o₁ = some o := by
    unfold proceed
    cases hm : o₁.1 with
    | none => exact ⟨k, le_rfl, o₁, rfl⟩
    | some m =>
      cases hkind : G.kind m with
      | directory =>
        obtain ⟨o, fuel, ho⟩ := hrest m hm hkind
        refine ⟨max k fuel, le_max_left k fuel, (o.1, o₁.2 ++ o.2), ?_⟩
        simp only [hkind, walk_mono (Nat.le_succ_of_le (le_max_right k fuel)) f m cs o ho,
          Option.map_some]
      | file => exact ⟨k, le_rfl, _, by simp only [hkind]; rfl⟩
      | link t => exact ⟨k, le_rfl, _, by simp only [hkind]; rfl⟩
  obtain ⟨k', hk', o, ho⟩ := main
  refine ⟨(o.1, .look d c :: o.2), k' + 1, ?_⟩
  rw [walk, walkWith_cons hfind, arrive_mono (walk_mono hk' true) harr, Option.bind_some]
  exact congrArg (Option.map _) ho

/-- Inversion of the same. -/
theorem walkWith_cons_eq_some (hfind : G.find d c = some n)
    (h : G.walkWith go f d (c :: cs) = some o) :
    ∃ o₁ o₂, G.arrive go (f || !cs.isEmpty) d n = some o₁ ∧
      G.proceed (fun m ↦ G.walkWith go f m cs) cs.isEmpty o₁ = some o₂ ∧
      o = (o₂.1, .look d c :: o₂.2) := by
  rw [walkWith_cons hfind] at h
  obtain ⟨o₂, h₂, rfl⟩ := Option.map_eq_some_iff.mp h
  obtain ⟨o₁, h₁, h₃⟩ := Option.bind_eq_some_iff.mp h₂
  exact ⟨o₁, o₂, h₁, h₃, rfl⟩

/-! ## When a walk ends -/

/-- The walk along `cs` from `d` comes to the link `x.1` in the directory `x.2`, and follows it. -/
inductive Meets (G : Graph N C) (f : Bool) : N → List C → N × N → Prop
  | here {d l : N} {c : C} {cs : List C} {t : Option (List C)} (hfind : G.find d c = some l)
      (hk : G.kind l = .link t) (hf : (f || !cs.isEmpty) = true) : Meets G f d (c :: cs) (l, d)
  | beyond {d n m : N} {c : C} {cs : List C} {x : N × N} {k : ℕ} {t : List (Event N C)}
      (hfind : G.find d c = some n)
      (harr : G.arrive (G.walk k true) (f || !cs.isEmpty) d n = some (some m, t))
      (hm : G.kind m = .directory) (h : Meets G f m cs x) : Meets G f d (c :: cs) x

/-- The walk along the target of `x` meets `y`. -/
def Nested (G : Graph N C) (y x : N × N) : Prop :=
  ∃ cs, G.kind x.1 = .link (some cs) ∧ G.Meets true (G.start x.1 x.2) cs y

/-- The walk leads to a link that comes up again while its own target is walked. -/
def Cyclic (G : Graph N C) (f : Bool) (d : N) (cs : List C) : Prop :=
  ∃ x y, G.Meets f d cs x ∧ Relation.ReflTransGen G.Nested y x ∧ Relation.TransGen G.Nested y y

/-- A walk ends if the target of every link it meets can be walked. -/
theorem exists_ends_of_targets
    (h : ∀ x cs', G.Meets f d cs x → G.kind x.1 = .link (some cs') →
      ∃ o, G.Ends true (G.start x.1 x.2) cs' o) : ∃ o, G.Ends f d cs o := by
  induction cs generalizing d with
  | nil => exact ⟨_, 1, rfl⟩
  | cons c cs ih =>
    cases hfind : G.find d c with
    | none => exact ⟨(none, [.look d c]), 1, by rw [walk, walkWith, hfind]⟩
    | some n =>
      have harr : ∃ k o₁, G.arrive (G.walk k true) (f || !cs.isEmpty) d n = some o₁ := by
        cases hk : G.kind n with
        | directory => exact ⟨0, _, arrive_of_not_link (by simp [hk])⟩
        | file => exact ⟨0, _, arrive_of_not_link (by simp [hk])⟩
        | link t =>
          cases hf : f || !cs.isEmpty with
          | false => exact ⟨0, (some n, []), by simp only [arrive, hk]⟩
          | true =>
            cases t with
            | none => exact ⟨0, (none, [.follow n d]), by simp only [arrive, hk]⟩
            | some cs' =>
              obtain ⟨o, k, ho⟩ := h (n, d) cs' (.here hfind hk hf) hk
              exact ⟨k, _, by rw [arrive_link hk, ho]; rfl⟩
      obtain ⟨k, o₁, ho₁⟩ := harr
      refine Ends.cons hfind ho₁ fun m hm hdir ↦ ih fun x cs' hx hk ↦ h x cs' ?_ hk
      exact .beyond hfind (ho₁.trans (congrArg some (Prod.ext hm rfl))) hdir hx

/-- Conversely the targets of the links met were walked, one level down. -/
theorem walk_target {k : ℕ} {x : N × N} (hx : G.Meets f d cs x) :
    ∀ o cs', G.walk (k + 1) f d cs = some o → G.kind x.1 = .link (some cs') →
      ∃ o', G.walk k true (G.start x.1 x.2) cs' = some o' := by
  induction hx with
  | here hfind hk hf =>
    intro o cs' h hk'
    obtain ⟨o₁, o₂, h₁, -, -⟩ := walkWith_cons_eq_some hfind h
    rw [hf, arrive_link hk'] at h₁
    obtain ⟨o', ho', -⟩ := Option.map_eq_some_iff.mp h₁
    exact ⟨o', ho'⟩
  | @beyond d n m c cs x k' t hfind harr hm hx ih =>
    intro o cs' h hk'
    obtain ⟨o₁, o₂, h₁, h₂, -⟩ := walkWith_cons_eq_some hfind h
    -- Both runs arrive at the same node, whatever their fuel.
    have e₁ := arrive_mono (walk_mono (le_max_left k k') true) h₁
    have e₂ := arrive_mono (walk_mono (le_max_right k k') true) harr
    have ho₁ : o₁ = (some m, t) := Option.some.inj (e₁.symm.trans e₂)
    simp only [proceed, ho₁, hm] at h₂
    obtain ⟨o₃, ho₃, -⟩ := Option.map_eq_some_iff.mp h₂
    exact ih o₃ cs' ho₃ hk'

theorem acc_of_walk {k : ℕ} {x : N × N} (h : G.walk k f d cs = some o) (hx : G.Meets f d cs x) :
    Acc G.Nested x := by
  induction k generalizing f d cs o x with
  | zero => cases h
  | succ k ih =>
    refine Acc.intro x fun y hy ↦ ?_
    obtain ⟨cs', hk, hmeets⟩ := hy
    obtain ⟨o', ho'⟩ := walk_target hx o cs' h hk
    exact ih ho' hmeets

theorem exists_ends_of_acc (h : ∀ x, G.Meets f d cs x → Acc G.Nested x) : ∃ o, G.Ends f d cs o := by
  have htarget : ∀ x, Acc G.Nested x → ∀ cs', G.kind x.1 = .link (some cs') →
      ∃ o, G.Ends true (G.start x.1 x.2) cs' o := by
    intro x hx
    induction hx with
    | intro x _ ih =>
      intro cs' hk
      exact exists_ends_of_targets fun y cs'' hy hk' ↦ ih y ⟨cs', hk, hy⟩ cs'' hk'
  exact exists_ends_of_targets fun x cs' hx ↦ htarget x (h x hx) cs'

/-- On a finite graph links are nested to a finite depth unless one is nested in itself. -/
theorem acc_of_not_cyclic [Finite N] (h : ¬ G.Cyclic f d cs) {x : N × N} (hx : G.Meets f d cs x) :
    Acc G.Nested x := by
  let reached (y : N × N) : Prop := ∃ x, G.Meets f d cs x ∧ Relation.ReflTransGen G.Nested y x
  let below (a b : N × N) : Prop := Relation.TransGen G.Nested a b ∧ reached b
  have : IsTrans (N × N) below := ⟨fun a b c hab hbc ↦ ⟨hab.1.trans hbc.1, hbc.2⟩⟩
  have : Std.Irrefl below :=
    ⟨fun a ⟨hcycle, x, hmeets, hreach⟩ ↦ h ⟨x, a, hmeets, hreach, hcycle⟩⟩
  have wf : WellFounded below := Finite.wellFounded_of_trans_of_irrefl below
  have hall : ∀ y, reached y → Acc G.Nested y := by
    intro y
    induction y using wf.induction with
    | _ y ih =>
      rintro ⟨x, hmeets, hreach⟩
      refine Acc.intro y fun z hz ↦ ih z ⟨.single hz, x, hmeets, hreach⟩ ?_
      exact ⟨x, hmeets, .head hz hreach⟩
  exact hall x ⟨x, hx, .refl⟩

theorem not_self_of_acc {α : Type} {r : α → α → Prop} {a : α} (h : Acc r a) : ¬ r a a := by
  induction h with
  | intro a _ ih => exact fun haa ↦ ih a haa haa

/-- **A walk in a finite graph ends exactly when it leads to no cycle of links.** -/
theorem exists_ends_iff_not_cyclic [Finite N] (f : Bool) (d : N) (cs : List C) :
    (∃ o, G.Ends f d cs o) ↔ ¬ G.Cyclic f d cs := by
  constructor
  · rintro ⟨o, k, h⟩ ⟨x, y, hmeets, hreach, hcycle⟩
    have hy : Acc G.Nested y := by
      rcases Relation.reflTransGen_iff_eq_or_transGen.mp hreach with rfl | hlt
      · exact acc_of_walk h hmeets
      · exact (acc_of_walk h hmeets).inv_of_transGen hlt
    exact not_self_of_acc hy.transGen hcycle
  · exact fun h ↦ exists_ends_of_acc fun x hx ↦ acc_of_not_cyclic h hx

/-! ## Two ways to start on a target -/

/-- Targets are walked from directories. -/
def StartsInDirs (G : Graph N C) : Prop :=
  ∀ l d, G.kind d = .directory → G.kind (G.start l d) = .directory

theorem proceed_of_not_directory {k : N → Option (Outcome N C)} {last : Bool} {m : N}
    (hm : o.1 = some m) (hk : G.kind m ≠ .directory) :
    G.proceed k last o = some (if last then some m else none, o.2) := by
  simp only [proceed, hm]

/-- What `proceed` does, one line per case. -/
theorem proceed_eq_some {k : N → Option (Outcome N C)} {last : Bool} {o' : Outcome N C}
    (h : G.proceed k last o = some o') :
    (o.1 = none ∧ o' = o) ∨
    (∃ m o₂, o.1 = some m ∧ G.kind m = .directory ∧ k m = some o₂ ∧ o' = (o₂.1, o.2 ++ o₂.2)) ∨
    ∃ m, o.1 = some m ∧ G.kind m ≠ .directory ∧ o' = (if last then some m else none, o.2) := by
  unfold proceed at h
  cases hm : o.1 with
  | none =>
    rw [hm] at h
    exact .inl ⟨rfl, (Option.some.inj h).symm⟩
  | some m =>
    rw [hm] at h
    cases hk : G.kind m with
    | directory =>
      simp only [hk] at h
      obtain ⟨o₂, ho₂, rfl⟩ := Option.map_eq_some_iff.mp h
      exact .inr (.inl ⟨m, o₂, rfl, hk, ho₂, rfl⟩)
    | file =>
      simp only [hk] at h
      exact .inr (.inr ⟨m, rfl, by simp [hk], (Option.some.inj h).symm⟩)
    | link t =>
      simp only [hk] at h
      exact .inr (.inr ⟨m, rfl, by simp [hk], (Option.some.inj h).symm⟩)

/-- What `arrive` does, one line per case. -/
theorem arrive_eq_some (h : G.arrive go f d n = some o) :
    (o = (some n, []) ∧ (f = false ∨ ∀ t, G.kind n ≠ .link t)) ∨
    (f = true ∧ G.kind n = .link none ∧ o = (none, [.follow n d])) ∨
    ∃ cs o', f = true ∧ G.kind n = .link (some cs) ∧ go (G.start n d) cs = some o' ∧
      o = (o'.1, .follow n d :: o'.2) := by
  cases hk : G.kind n with
  | directory =>
    rw [arrive_of_not_link (by simp [hk])] at h
    exact .inl ⟨(Option.some.inj h).symm, .inr (by simp)⟩
  | file =>
    rw [arrive_of_not_link (by simp [hk])] at h
    exact .inl ⟨(Option.some.inj h).symm, .inr (by simp)⟩
  | link t =>
    cases f with
    | false =>
      simp only [arrive, hk] at h
      exact .inl ⟨(Option.some.inj h).symm, .inl rfl⟩
    | true =>
      cases t with
      | none =>
        simp only [arrive, hk] at h
        exact .inr (.inl ⟨rfl, rfl, (Option.some.inj h).symm⟩)
      | some cs =>
        rw [arrive_link hk] at h
        obtain ⟨o', ho', rfl⟩ := Option.map_eq_some_iff.mp h
        exact .inr (.inr ⟨cs, o', rfl, rfl, ho', rfl⟩)

/-- **A walk that follows every link does not end on one.** -/
theorem walk_not_link (hG : G.StartsInDirs) {k : ℕ} {m : N} (hd : G.kind d = .directory)
    (h : G.walk k true d cs = some o) (hm : o.1 = some m) : ∀ t, G.kind m ≠ .link t := by
  induction k generalizing d cs o with
  | zero => cases h
  | succ k ihk =>
    rw [walk] at h
    induction cs generalizing d o with
    | nil =>
      rw [walkWith, Option.some.injEq] at h
      subst h
      obtain rfl : d = m := by simpa using hm
      simp [hd]
    | cons c cs ih =>
      cases hfind : G.find d c with
      | none =>
        rw [walkWith, hfind, Option.some.injEq] at h
        subst h
        cases hm
      | some n =>
        obtain ⟨o₁, o₂, harr, hproc, rfl⟩ := walkWith_cons_eq_some hfind h
        obtain ⟨hnone, rfl⟩ | ⟨m', o₃, -, hdir, h₃, rfl⟩ | ⟨m', hm', -, rfl⟩ :=
          proceed_eq_some hproc
        · rw [hnone] at hm
          cases hm
        · exact ih hdir h₃ hm
        · -- The walk stops at what the last component stands for.
          obtain rfl : m' = m := by
            cases hl : cs.isEmpty <;> simp_all
          obtain ⟨rfl, hnl⟩ | ⟨-, -, rfl⟩ | ⟨cs', o', -, hk, hgo, rfl⟩ := arrive_eq_some harr
          · obtain rfl : n = m' := by simpa using hm'
            exact hnl.resolve_left (by simp)
          · cases hm'
          · exact ihk (hG n d hd) hgo hm'

/-- The same graph, with other places to start on targets. -/
def withStart (G : Graph N C) (s : N → N → N) : Graph N C := { G with start := s }

/-- The two ways to start agree on every link followed. -/
def Agree (G : Graph N C) (s : N → N → N) (t : List (Event N C)) : Prop :=
  ∀ l d, Event.follow l d ∈ t → G.start l d = s l d

theorem Agree.mono {s : N → N → N} {t t' : List (Event N C)} (h : G.Agree s t')
    (hsub : t ⊆ t') : G.Agree s t :=
  fun l d hl ↦ h l d (hsub hl)

theorem Agree.nil {s : N → N → N} : G.Agree s [] := fun l d h ↦ by cases h

theorem Agree.look {s : N → N → N} {t : List (Event N C)} (h : G.Agree s t) (d : N) (c : C) :
    G.Agree s (.look d c :: t) := by
  intro l d' hl
  simp only [List.mem_cons, reduceCtorEq, false_or] at hl
  exact h l d' hl

theorem Agree.follow {s : N → N → N} {t : List (Event N C)} (h : G.Agree s t) {l d : N}
    (hs : G.start l d = s l d) : G.Agree s (.follow l d :: t) := by
  intro l' d' hl
  rcases List.mem_cons.mp hl with heq | hl
  · cases heq
    exact hs
  · exact h l' d' hl

theorem Agree.append {s : N → N → N} {t t' : List (Event N C)} (h : G.Agree s t)
    (h' : G.Agree s t') : G.Agree s (t ++ t') :=
  fun l d hl ↦ (List.mem_append.mp hl).elim (h l d) (h' l d)

theorem arrive_withStart {s : N → N → N} {k : ℕ} (harr : G.arrive (G.walk k true) f d n = some o)
    (hagree : G.Agree s o.2)
    (ih : ∀ d cs o, G.walk k true d cs = some o → G.Agree s o.2 →
      (G.withStart s).walk k true d cs = some o)
    (hlast : f = true ∨ ∀ t, G.kind n ≠ .link t) :
    (G.withStart s).arrive ((G.withStart s).walk k true) true d n = some o := by
  obtain ⟨rfl, hnl⟩ | ⟨-, hk, rfl⟩ | ⟨cs', o', -, hk, hgo, rfl⟩ := arrive_eq_some harr
  · refine arrive_of_not_link ?_
    rcases hnl with rfl | hnl
    · exact hlast.resolve_left (by simp)
    · exact hnl
  · simp only [arrive, show (G.withStart s).kind n = _ from hk]
  · have hstart : G.start n d = s n d := hagree n d List.mem_cons_self
    rw [arrive_link (G := G.withStart s) hk, show (G.withStart s).start n d = _ from hstart.symm,
      ih _ _ _ hgo (hagree.mono (List.subset_cons_self _ _))]
    rfl

/-- Where the two agree, and no link is left unfollowed at the end, so do the walks. -/
theorem walk_withStart {s : N → N → N} {k : ℕ} (h : G.walk k f d cs = some o)
    (hagree : G.Agree s o.2) (hlast : f = true ∨ ∀ m t, o.1 = some m → G.kind m ≠ .link t) :
    (G.withStart s).walk k true d cs = some o := by
  induction k generalizing f d cs o with
  | zero => cases h
  | succ k ihk =>
    rw [walk] at h ⊢
    induction cs generalizing d o with
    | nil => exact h
    | cons c cs ih =>
      cases hfind : G.find d c with
      | none =>
        rw [walkWith, hfind] at h
        rw [walkWith, show (G.withStart s).find d c = none from hfind, h]
      | some n =>
        obtain ⟨o₁, o₂, harr, hproc, rfl⟩ := walkWith_cons_eq_some hfind h
        -- Only the last component can be a link that is not followed.
        have hkept : (f || !cs.isEmpty) = true ∨ ∀ t, G.kind n ≠ .link t := by
          by_contra hcon
          obtain ⟨hf, t, hk⟩ : (f || !cs.isEmpty) = false ∧ ∃ t, G.kind n = .link t := by
            simpa using hcon
          simp only [arrive, hk, hf, Option.some.injEq] at harr
          subst harr
          simp only [Bool.or_eq_false_iff, Bool.not_eq_false'] at hf
          simp only [proceed, hk, hf.2, if_true, Option.some.injEq] at hproc
          subst hproc
          exact (hlast.resolve_left (by simp [hf.1])) n t rfl hk
        have harrive (ha : G.Agree s o₁.2) :
            (G.withStart s).arrive ((G.withStart s).walk k true) (true || !cs.isEmpty) d n =
              some o₁ :=
          arrive_withStart harr ha (fun d cs o h hagree ↦ ihk h hagree (.inl rfl)) hkept
        rw [walkWith_cons (G := G.withStart s) hfind]
        obtain ⟨hnone, rfl⟩ | ⟨m, o₃, hm, hdir, h₃, rfl⟩ | ⟨m, hm, hnot, rfl⟩ :=
          proceed_eq_some hproc
        · rw [harrive (hagree.mono (List.subset_cons_self _ _)), Option.bind_some]
          simp only [proceed, hnone, Option.map_some]
        · have ha : G.Agree s (o₁.2 ++ o₃.2) := hagree.mono (List.subset_cons_self _ _)
          rw [harrive (ha.mono (List.subset_append_left _ _)), Option.bind_some]
          have h₃' := ih h₃ (ha.mono (List.subset_append_right _ _)) hlast
          simp only [proceed, hm, show (G.withStart s).kind m = _ from hdir, h₃', Option.map_some]
        · rw [harrive (hagree.mono (List.subset_cons_self _ _)), Option.bind_some]
          rw [proceed_of_not_directory (G := G.withStart s) hm hnot]
          rfl

/-- A walk begins by looking up its first component. -/
theorem walk_head {k : ℕ} (h : G.walk k f d (c :: cs) = some o) : ∃ t, o.2 = .look d c :: t := by
  cases k with
  | zero => cases h
  | succ k =>
    cases hfind : G.find d c with
    | none =>
      rw [walk, walkWith, hfind, Option.some.injEq] at h
      exact ⟨[], by rw [← h]⟩
    | some n =>
      obtain ⟨o₁, o₂, -, -, rfl⟩ := walkWith_cons_eq_some hfind h
      exact ⟨o₂.2, rfl⟩

theorem walk_nil {k : ℕ} (h : G.walk k f d [] = some o) : o = (some d, []) := by
  cases k with
  | zero => cases h
  | succ k => exact (Option.some.inj h).symm

/-- What `proceed` adds to the record, and when it adds nothing. -/
theorem proceed_record {p : Outcome N C}
    (h : G.proceed (fun m ↦ G.walkWith go f m cs) cs.isEmpty o = some p) :
    ∃ u, p.2 = o.2 ++ u ∧ (o.1 = none → u = [] ∧ p.1 = none) ∧ (cs = [] → u = []) := by
  obtain ⟨hnone, rfl⟩ | ⟨m, o', hm, -, h', rfl⟩ | ⟨m, hm, -, rfl⟩ := proceed_eq_some h
  · exact ⟨[], by simp, fun _ ↦ ⟨rfl, hnone⟩, fun _ ↦ rfl⟩
  · refine ⟨o'.2, rfl, by simp [hm], ?_⟩
    rintro rfl
    rw [walkWith, Option.some.injEq] at h'
    rw [← h']
  · exact ⟨[], by simp, by simp [hm], fun _ ↦ rfl⟩

/-- Two walks with one record that end in different directories. -/
def Apart (G : Graph N C) (o₁ o₂ : Outcome N C) : Prop :=
  o₁.2 = o₂.2 ∧ ∃ m₁ m₂, o₁.1 = some m₁ ∧ o₂.1 = some m₂ ∧
    G.kind m₁ = .directory ∧ G.kind m₂ = .directory ∧ m₁ ≠ m₂

section Compare

variable {s : N → N → N} {o₁ o₂ : Outcome N C} {x y : List (Event N C)}

/-- From different directories the first lookup already differs, so there is none. -/
theorem walk_apart {k₁ k₂ : ℕ} {m₁ m₂ : N} (hne : m₁ ≠ m₂) (h₁ : G.walk k₁ f m₁ cs = some o₁)
    (h₂ : (G.withStart s).walk k₂ true m₂ cs = some o₂) (he : o₁.2 ++ x = o₂.2 ++ y) :
    o₁ = (some m₁, []) ∧ o₂ = (some m₂, []) := by
  cases cs with
  | nil => exact ⟨walk_nil h₁, walk_nil h₂⟩
  | cons c cs =>
    obtain ⟨t₁, ht₁⟩ := walk_head h₁
    obtain ⟨t₂, ht₂⟩ := walk_head h₂
    rw [ht₁, ht₂] at he
    simp only [List.cons_append, List.cons.injEq, Event.look.injEq] at he
    exact absurd he.1.1 hne

/-- The comparison at one component, given the one for nested walks. -/
theorem arrive_agree_or_apart {k₁ k₂ : ℕ} (hG : G.StartsInDirs)
    (hH : (G.withStart s).StartsInDirs)
    (hun : ∀ l d, G.kind l = .link none → G.start l d = s l d) (hd : G.kind d = .directory)
    (ih : ∀ d cs o₁ o₂ x y, G.kind d = .directory → G.walk k₁ true d cs = some o₁ →
      (G.withStart s).walk k₂ true d cs = some o₂ → (o₁.1 = none → x = []) →
      (o₂.1 = none → y = []) → o₁.2 ++ x = o₂.2 ++ y →
      (G.Agree s o₁.2 ∧ o₁ = o₂) ∨ G.Apart o₁ o₂)
    (h₁ : G.arrive (G.walk k₁ true) f d n = some o₁)
    (h₂ : (G.withStart s).arrive ((G.withStart s).walk k₂ true) true d n = some o₂)
    (hx : o₁.1 = none → x = []) (hf : f = false → x = []) (hy : o₂.1 = none → y = [])
    (he : o₁.2 ++ x = o₂.2 ++ y) : (G.Agree s o₁.2 ∧ o₁ = o₂) ∨ G.Apart o₁ o₂ := by
  obtain ⟨rfl, hnl₂⟩ | ⟨-, hk₂, rfl⟩ | ⟨cs₂, o₂', -, hk₂, hgo₂, rfl⟩ := arrive_eq_some h₂
  · have hnl : ∀ t, G.kind n ≠ .link t := hnl₂.resolve_left (by simp)
    rw [arrive_of_not_link hnl, Option.some.injEq] at h₁
    exact .inl ⟨h₁ ▸ .nil, h₁.symm⟩
  · obtain ⟨rfl, hnl₁⟩ | ⟨-, -, rfl⟩ | ⟨cs₁, o₁', -, hk₁, -, -⟩ := arrive_eq_some h₁
    · have hff : f = false := hnl₁.resolve_right fun h ↦ h none hk₂
      rw [hf hff] at he
      cases he
    · exact .inl ⟨Agree.nil.follow (hun n d hk₂), rfl⟩
    · cases hk₁.symm.trans hk₂
  · obtain ⟨rfl, hnl₁⟩ | ⟨-, hk₁, -⟩ | ⟨cs₁, o₁', -, hk₁, hgo₁, rfl⟩ := arrive_eq_some h₁
    · have hff : f = false := hnl₁.resolve_right fun h ↦ h _ hk₂
      rw [hf hff] at he
      cases he
    · cases hk₁.symm.trans hk₂
    · obtain rfl : cs₁ = cs₂ := by
        have := hk₁.symm.trans hk₂
        simpa using this
      have he' : o₁'.2 ++ x = o₂'.2 ++ y := (List.cons.inj he).2
      by_cases hs : G.start n d = s n d
      · -- The targets are walked from the same directory.
        have hgo₂' : (G.withStart s).walk k₂ true (G.start n d) cs₁ = some o₂' := hs ▸ hgo₂
        rcases ih _ _ _ _ x y (hG n d hd) hgo₁ hgo₂' hx hy he' with ⟨hagree, rfl⟩ | hapart
        · exact .inl ⟨hagree.follow hs, rfl⟩
        · exact .inr ⟨congrArg (List.cons _) hapart.1, hapart.2⟩
      · -- They are not, and only an empty target hides it for now.
        obtain ⟨rfl, rfl⟩ := walk_apart hs hgo₁ hgo₂ he'
        exact .inr ⟨rfl, _, _, rfl, rfl, hG n d hd, hH n d hd, hs⟩

/-- **Walks with one record.**  If what the two walks do is the same as far as both go, they either
agree on every link, and then are the same, or end in different directories. -/
theorem walk_agree_or_apart (hG : G.StartsInDirs) (hH : (G.withStart s).StartsInDirs)
    (hun : ∀ l d, G.kind l = .link none → G.start l d = s l d) {k₁ k₂ : ℕ}
    (hd : G.kind d = .directory) (h₁ : G.walk k₁ f d cs = some o₁)
    (h₂ : (G.withStart s).walk k₂ true d cs = some o₂) (hx : o₁.1 = none → x = [])
    (hf : f = false → x = []) (hy : o₂.1 = none → y = []) (he : o₁.2 ++ x = o₂.2 ++ y) :
    (G.Agree s o₁.2 ∧ o₁ = o₂) ∨ G.Apart o₁ o₂ := by
  induction k₁ generalizing k₂ f d cs o₁ o₂ x y with
  | zero => cases h₁
  | succ k₁ ihk =>
    cases k₂ with
    | zero => cases h₂
    | succ k₂ =>
      induction cs generalizing d o₁ o₂ x y with
      | nil =>
        rw [walk_nil h₁, walk_nil h₂]
        exact .inl ⟨.nil, rfl⟩
      | cons c cs ih =>
        cases hfind : G.find d c with
        | none =>
          rw [walk, walkWith, hfind, Option.some.injEq] at h₁
          rw [walk, walkWith, show (G.withStart s).find d c = none from hfind,
            Option.some.injEq] at h₂
          exact .inl ⟨h₁ ▸ Agree.nil.look d c, h₁.symm.trans h₂⟩
        | some n =>
          obtain ⟨a₁, p₁, harr₁, hproc₁, rfl⟩ := walkWith_cons_eq_some hfind h₁
          obtain ⟨a₂, p₂, harr₂, hproc₂, rfl⟩ :=
            walkWith_cons_eq_some (G := G.withStart s) hfind h₂
          obtain ⟨u₁, hu₁, hnone₁, hnil₁⟩ := proceed_record hproc₁
          obtain ⟨u₂, hu₂, hnone₂, -⟩ := proceed_record hproc₂
          have he' : p₁.2 ++ x = p₂.2 ++ y := (List.cons.inj he).2
          have hea : a₁.2 ++ (u₁ ++ x) = a₂.2 ++ (u₂ ++ y) := by
            rw [← List.append_assoc, ← List.append_assoc, ← hu₁, ← hu₂, he']
          have hxa : a₁.1 = none → u₁ ++ x = [] := fun h ↦ by
            rw [(hnone₁ h).1, hx (hnone₁ h).2, List.append_nil]
          have hya : a₂.1 = none → u₂ ++ y = [] := fun h ↦ by
            rw [(hnone₂ h).1, hy (hnone₂ h).2, List.append_nil]
          have hfa : (f || !cs.isEmpty) = false → u₁ ++ x = [] := fun h ↦ by
            simp only [Bool.or_eq_false_iff, Bool.not_eq_false', List.isEmpty_iff] at h
            rw [hnil₁ h.2, hf h.1, List.append_nil]
          have hstep := arrive_agree_or_apart hG hH hun hd
            (fun d cs o₁ o₂ x y hd h₁ h₂ hx hy he ↦ ihk hd h₁ h₂ hx (by simp) hy he)
            harr₁ harr₂ hxa hfa hya hea
          rcases hstep with ⟨hagree, rfl⟩ | ⟨hrec, m₁, m₂, hm₁, hm₂, hdir₁, hdir₂, hne⟩
          · -- The first component leads both to the same place.
            obtain ⟨hno, rfl⟩ | ⟨m, q₁, hm, hdir, hq₁, rfl⟩ | ⟨m, hm, hnot, rfl⟩ :=
              proceed_eq_some hproc₁
            · simp only [proceed, hno, Option.some.injEq] at hproc₂
              exact .inl ⟨hagree.look d c, by rw [hproc₂]⟩
            · simp only [proceed, hm, show (G.withStart s).kind m = _ from hdir] at hproc₂
              obtain ⟨q₂, hq₂, rfl⟩ := Option.map_eq_some_iff.mp hproc₂
              have heq : q₁.2 ++ x = q₂.2 ++ y := by
                simpa only [List.append_assoc, List.append_cancel_left_eq] using he'
              rcases @ih m q₁ q₂ x y hdir hq₁ hx hf hy heq hq₂ with ⟨hagree', rfl⟩ | ⟨hrec', hends⟩
              · exact .inl ⟨(hagree.append hagree').look d c, rfl⟩
              · exact .inr ⟨by simp only [hrec'], hends⟩
            · rw [proceed_of_not_directory (G := G.withStart s) hm hnot,
                Option.some.injEq] at hproc₂
              exact .inl ⟨hagree.look d c, by rw [← hproc₂]⟩
          · -- It leads to different directories.
            simp only [proceed, hm₁, hdir₁] at hproc₁
            simp only [proceed, hm₂, show (G.withStart s).kind m₂ = _ from hdir₂] at hproc₂
            obtain ⟨q₁, hq₁, rfl⟩ := Option.map_eq_some_iff.mp hproc₁
            obtain ⟨q₂, hq₂, rfl⟩ := Option.map_eq_some_iff.mp hproc₂
            have heq : q₁.2 ++ x = q₂.2 ++ y := by
              simpa only [hrec, List.append_assoc, List.append_cancel_left_eq] using he'
            obtain ⟨rfl, rfl⟩ := walk_apart hne
              (show G.walk (k₁ + 1) f m₁ cs = some q₁ from hq₁)
              (show (G.withStart s).walk (k₂ + 1) true m₂ cs = some q₂ from hq₂) heq
            exact .inr ⟨by simp only [hrec], m₁, m₂, rfl, rfl, hdir₁, hdir₂, hne⟩

/-- **When two ways to start on targets give the same walk.**  Given a walk that ends, the one that
starts on targets as `s` says, and follows a link at the end as well, does the same with the same
outcome exactly when `s` agrees on every link followed and no link was left. -/
theorem same_walk_iff (hG : G.StartsInDirs) (hH : (G.withStart s).StartsInDirs)
    (hun : ∀ l d, G.kind l = .link none → G.start l d = s l d) (hd : G.kind d = .directory)
    (h : G.Ends f d cs o) :
    (G.withStart s).Ends true d cs o ↔
      G.Agree s o.2 ∧ (f = true ∨ ∀ m t, o.1 = some m → G.kind m ≠ .link t) := by
  obtain ⟨k, hk⟩ := h
  constructor
  · rintro ⟨k', hk'⟩
    refine ⟨?_, .inr fun m t hm ↦ walk_not_link hH (G := G.withStart s) hd hk' hm t⟩
    rcases walk_agree_or_apart (x := []) (y := []) hG hH hun hd hk hk' (fun _ ↦ rfl) (fun _ ↦ rfl)
      (fun _ ↦ rfl) rfl with ⟨hagree, -⟩ | ⟨-, m₁, m₂, hm₁, hm₂, -, -, hne⟩
    · exact hagree
    · exact absurd (Option.some.inj (hm₁.symm.trans hm₂)) hne
  · rintro ⟨hagree, hlast⟩
    exact ⟨k, walk_withStart hk hagree hlast⟩

end Compare

end Graph

end PathWalk
