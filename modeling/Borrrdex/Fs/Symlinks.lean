import Borrrdex.Fs.ResolvePath

/-!
# What `resolve_path` makes of symbolic links

`resolve_path` is a walk that follows every link (`resolvePath_eq_walk`).  Two things about links
are settled here.

**Whether it ends.**  `symlink_count` is set to zero at every component of every call, and what
`follow_link` returns is not a link, so the count never passes one and `SYMLINK_MAX` bounds nothing:
a chain of any length is followed to its end, and a link that leads back to itself for ever.

**Whether it is the walk it should be.**  `reference` has the texts that start with a slash resolved
from the root, and leaves a link at the end of a path alone when the flag is off.  The two are the
same walk as long as neither comes up.
-/

set_option autoImplicit false

namespace Borrrdex

open Components PathWalk

variable {N : Type}

namespace FileSystem

/-! ## Ending -/

/-- The number of links followed. -/
def linksFollowed (t : List (Event N (List Byte))) : ℕ :=
  t.countP fun e ↦ match e with
    | .look _ _ => false
    | .follow _ _ => true

/-- A path leads through `k` links, those in the texts of links included. -/
def LeadsThrough (fs : FileSystem N) (wd : N) (path : List Byte) (k : ℕ) : Prop :=
  ∃ o, fs.graph.Ends true wd (pathComponents path) o ∧ linksFollowed o.2 = k

/-- A call ends after at most `bound` links, and with null if the path leads through more. -/
def EndsWithin (fs : FileSystem N) (bound : ℕ) (path : List Byte) (wd : N) (follow : Bool) : Prop :=
  ∃ fuel r, fs.resolvePath fuel path wd follow = some r ∧ linksFollowed r.events ≤ bound ∧
    ∀ k, fs.LeadsThrough wd path k → bound < k → r.node = none

/-- A call that returns is a walk that ends. -/
theorem exists_resolvePath_iff {fs : FileSystem N} {wd : N} (hwd : fs.isDir wd = true)
    (path : List Byte) (follow : Bool) (o : Outcome N (List Byte)) :
    (∃ fuel r, fs.resolvePath fuel path wd follow = some r ∧ r.outcome = o) ↔
      fs.graph.Ends true wd (pathComponents path) o := by
  constructor
  · rintro ⟨fuel, r, hr, rfl⟩
    refine ⟨fuel, ?_⟩
    rw [← resolvePath_eq_walk fs fuel path wd follow hwd, hr, Option.map_some]
  · rintro ⟨fuel, h⟩
    rw [← resolvePath_eq_walk fs fuel path wd follow hwd] at h
    obtain ⟨r, hr, hout⟩ := Option.map_eq_some_iff.mp h
    exact ⟨fuel, r, hr, hout⟩

/-- **When path resolution ends within a bound.**  Whatever the bound, a call ends within it exactly
if the path leads to no link that comes up again in its own text, and the number of links the path
leads through is within the bound to begin with. -/
theorem ends_within_iff [Finite N] (fs : FileSystem N) (bound : ℕ) (path : List Byte) (wd : N)
    (follow : Bool) (hwd : fs.isDir wd = true) :
    fs.EndsWithin bound path wd follow ↔
      ¬ fs.graph.Cyclic true wd (pathComponents path) ∧
        ∀ k, fs.LeadsThrough wd path k → k ≤ bound := by
  rw [← Graph.exists_ends_iff_not_cyclic]
  constructor
  · rintro ⟨fuel, r, hr, hle, -⟩
    have hends := (exists_resolvePath_iff hwd path follow r.outcome).mp ⟨fuel, r, hr, rfl⟩
    refine ⟨⟨r.outcome, hends⟩, ?_⟩
    rintro k ⟨o, ho, rfl⟩
    rw [ho.unique hends]
    exact hle
  · rintro ⟨⟨o, ho⟩, hle⟩
    obtain ⟨fuel, r, hr, rfl⟩ := (exists_resolvePath_iff hwd path follow o).mpr ho
    refine ⟨fuel, r, hr, hle _ ⟨_, ho, rfl⟩, fun k hk hlt ↦ ?_⟩
    exact absurd (hle k hk) (by omega)

/-- The root, with a link `a` to `a`. -/
def selfLink : FileSystem Bool where
  root := false
  flags n := if n then 0xA000#32 else 0x4000#32
  findDir n name := if n = false ∧ name = [0x61] then some true else none
  readLink n := if n then some [0x61] else none
  root_dir := by decide
  findDir_dir n name h := by
    have h₁ : n = true := by
      by_contra hne
      rw [if_neg hne] at h
      exact h (by decide)
    simp [h₁]

theorem selfLink_walk (fuel : ℕ) : selfLink.graph.walk fuel true false [[0x61]] = none := by
  induction fuel with
  | zero => rfl
  | succ fuel ih =>
    have hk : selfLink.graph.kind true = .link (some [[0x61]]) := by rfl
    rw [Graph.walk, Graph.walkWith_cons (show selfLink.graph.find false [0x61] =
      some true from rfl),
      Bool.true_or, Graph.arrive_link hk, show selfLink.graph.start true false = false from rfl, ih]
    rfl

/-- No bound holds for the path `a` there: the call does not end. -/
theorem self_link_never_ends :
    ¬ ∃ bound, ∀ path wd follow, selfLink.isDir wd = true →
      selfLink.EndsWithin bound path wd follow := by
  rintro ⟨bound, h⟩
  obtain ⟨fuel, r, hr, -, -⟩ := h [0x61, 0] false true (by decide)
  have hwalk := resolvePath_eq_walk selfLink fuel [0x61, 0] false true (by decide)
  rw [hr, show pathComponents [0x61, 0] = [[0x61]] from by decide, selfLink_walk] at hwalk
  cases hwalk

theorem oneLink_ends :
    oneLink.graph.Ends true 0 (pathComponents [0x6C, 0])
      (some 2, [.look 0 [0x6C], .follow 1 0, .look 0 [0x66]]) :=
  ⟨2, by decide⟩

/-- There one link is followed, and no cycle is met. -/
theorem one_link_within_one :
    oneLink.EndsWithin 1 [0x6C, 0] 0 true ∧
      ¬ oneLink.graph.Cyclic true 0 (pathComponents [0x6C, 0]) := by
  have hends : oneLink.EndsWithin 1 [0x6C, 0] 0 true := by
    obtain ⟨fuel, r, hr, hout⟩ :=
      (exists_resolvePath_iff (by decide) [0x6C, 0] true _).mpr oneLink_ends
    refine ⟨fuel, r, hr, ?_, ?_⟩
    · rw [show r.events = _ from congrArg Prod.snd hout]
      decide
    · rintro k ⟨o, ho, rfl⟩ hlt
      rw [ho.unique oneLink_ends] at hlt
      exact absurd hlt (by decide)
  exact ⟨hends, ((ends_within_iff oneLink 1 [0x6C, 0] 0 true (by decide)).mp hends).1⟩

/-! ## The walk links ask for -/

/-- The text of a link starts with a slash. -/
def isAbsolute (fs : FileSystem N) (l : N) : Bool :=
  match fs.readLink l with
  | none => false
  | some text => (cString text).head? == some 0x2F

/-- The graph in which such a text is resolved from the root. -/
def reference (fs : FileSystem N) : PathWalk.Graph N (List Byte) :=
  { fs.graph with start := fun l d ↦ if fs.isAbsolute l then fs.root else d }

theorem reference_startsInDirs (fs : FileSystem N) : fs.reference.StartsInDirs := by
  intro l d hd
  show fs.graph.kind (if fs.isAbsolute l then fs.root else d) = _
  split
  · exact graph_kind_directory.mpr (by simpa [isDir] using fs.root_dir)
  · exact hd

theorem reference_start_of_unreadable {fs : FileSystem N} {l : N}
    (hk : fs.reference.kind l = .link none) (d : N) : fs.reference.start l d = d := by
  have hread : fs.readLink l = none := Option.map_eq_none_iff.mp (graph_kind_link hk).2.symm
  simp [reference, isAbsolute, hread]

/-- **When path resolution treats links as it should.**  Where the reference walk meets no cycle,
`resolve_path` does the same lookups, follows the same links and returns the same node exactly when
every link with an absolute text it follows lies in the root, and the flag is on or the walk does
not end on a link. -/
theorem follows_reference_iff [Finite N] (fs : FileSystem N) (path : List Byte) (wd : N)
    (follow : Bool) (hwd : fs.isDir wd = true)
    (hacyclic : ¬ fs.reference.Cyclic follow wd (pathComponents path)) :
    (∃ fuel r, fs.resolvePath fuel path wd follow = some r ∧
      fs.reference.Ends follow wd (pathComponents path) (r.node, r.events)) ↔
    ∀ o, fs.reference.Ends follow wd (pathComponents path) o →
      (∀ l d, Event.follow l d ∈ o.2 → fs.isAbsolute l = true → d = fs.root) ∧
      (follow = true ∨ ∀ l, o.1 = some l → fs.isSymlink l = false) := by
  obtain ⟨o, ho⟩ := (Graph.exists_ends_iff_not_cyclic follow wd (pathComponents path)).mpr hacyclic
  have hsame := Graph.same_walk_iff (s := fun _ d ↦ d) fs.reference_startsInDirs
    graph_startsInDirs (fun l d hk ↦ reference_start_of_unreadable hk d)
    (graph_kind_directory.mpr hwd) ho
  have hagree : fs.reference.Agree (fun _ d ↦ d) o.2 ↔
      ∀ l d, Event.follow l d ∈ o.2 → fs.isAbsolute l = true → d = fs.root := by
    refine forall₃_congr fun l d _ ↦ ?_
    simp only [reference]
    by_cases h : fs.isAbsolute l = true <;> simp [h, eq_comm]
  have hlink : (∀ m t, o.1 = some m → fs.reference.kind m ≠ .link t) ↔
      ∀ l, o.1 = some l → fs.isSymlink l = false := by
    refine forall_congr' fun m ↦ ⟨fun h hm ↦ ?_, fun h t hm hk ↦ ?_⟩
    · rw [← Bool.not_eq_true]
      exact fun hs ↦ h _ hm (if_pos hs)
    · have := (graph_kind_link hk).1
      rw [h hm] at this
      cases this
  rw [hagree, hlink] at hsame
  constructor
  · rintro ⟨fuel, r, hr, href⟩ o' ho'
    rw [ho'.unique ho]
    refine hsame.mp ((exists_resolvePath_iff hwd path follow o).mp ⟨fuel, r, hr, ?_⟩)
    exact href.unique ho
  · intro h
    obtain ⟨fuel, r, hr, hout⟩ :=
      (exists_resolvePath_iff hwd path follow o).mpr (hsame.mpr (h o ho))
    refine ⟨fuel, r, hr, ?_⟩
    rwa [show (r.node, r.events) = o from hout]

/-- The reference walk along `l`, with the flag on. -/
theorem oneLink_reference :
    oneLink.reference.Ends true 0 (pathComponents [0x6C, 0])
      (some 2, [.look 0 [0x6C], .follow 1 0, .look 0 [0x66]]) :=
  ⟨2, by decide⟩

/-- With the flag on, `l` is the file, as it should be. -/
theorem one_link_followed :
    ∃ fuel r, oneLink.resolvePath fuel [0x6C, 0] 0 true = some r ∧
      oneLink.reference.Ends true 0 (pathComponents [0x6C, 0]) (r.node, r.events) := by
  refine (follows_reference_iff oneLink [0x6C, 0] 0 true (by decide) ?_).mpr fun o ho ↦ ?_
  · exact (Graph.exists_ends_iff_not_cyclic true 0 _).mp ⟨_, oneLink_reference⟩
  · rw [ho.unique oneLink_reference]
    refine ⟨fun l d h habs ↦ ?_, .inl rfl⟩
    obtain ⟨rfl, rfl⟩ : l = 1 ∧ d = 0 := by simpa using h
    rfl

/-- A directory `d` with a link `l` to `/f` in it, and a file `f` in the root. -/
def absoluteLink : FileSystem (Fin 4) where
  root := 0
  flags n := if n = 0 ∨ n = 1 then 0x4000#32 else if n = 2 then 0xA000#32 else 0x8000#32
  findDir n name :=
    if n = 0 ∧ name = [0x64] then some 1
    else if n = 1 ∧ name = [0x6C] then some 2
    else if n = 0 ∧ name = [0x66] then some 3 else none
  readLink n := if n = 2 then some [0x2F, 0x66] else none
  root_dir := by decide
  findDir_dir n name h := by
    have h₀ : ¬ (n = 0 ∨ n = 1) := by
      intro hn
      rw [if_pos hn] at h
      exact h (by decide)
    simp [not_or.mp h₀]

/-- With the flag off, `l` is the file and not the link; and `d/l` is not found, though the file
`/f` is there. -/
theorem links_not_as_in_reference :
    (∃ o, oneLink.reference.Ends false 0 (pathComponents [0x6C, 0]) o ∧
      ∃ r, oneLink.resolvePath 2 [0x6C, 0] 0 false = some r ∧ r.node ≠ o.1) ∧
    ∃ o, absoluteLink.reference.Ends true 0 (pathComponents [0x64, 0x2F, 0x6C, 0]) o ∧
      ∃ r, absoluteLink.resolvePath 2 [0x64, 0x2F, 0x6C, 0] 0 true = some r ∧ r.node ≠ o.1 := by
  refine ⟨⟨(some 1, [.look 0 [0x6C]]), ⟨1, by decide⟩, ?_⟩,
    ⟨(some 3, [.look 0 [0x64], .look 1 [0x6C], .follow 2 1, .look 0 [0x66]]), ⟨2, by decide⟩, ?_⟩⟩
  · exact ⟨⟨some 2, [.look 0 [0x6C], .follow 1 0, .look 0 [0x66]], [0x6C, 0]⟩, by rfl, by decide⟩
  · exact ⟨⟨none, [.look 0 [0x64], .look 1 [0x6C], .follow 2 1, .look 1 [0x66]],
      [0x64, 0, 0x6C, 0]⟩, by rfl, by decide⟩

end FileSystem

end Borrrdex
