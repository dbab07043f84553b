import Borrrdex.Lib.FiniteMap

/-!
# The kernel's `lru_cache`

`lru_cache` keeps every entry twice: in a hash map, which `get` consults, and in a list that
remembers the order of insertion and carries its own copy of the value.  A `set` on a key the map
already holds writes the map's copy alone, and the list's copy is what an eviction later hands to
the destructor.  The map is a finite map here and the list is read from its back, so the entry
`pop_back` takes is the head.

* `Entries` is the invariant of every run: the two key sets agree, are duplicate free and stay
  within the capacity.  `set_of_mem` and `set_of_notMem` say what one `set` does to it.
* `runInv` carries it along a run together with the answers of `get` and a **count** of the values
  stored: each is destroyed, still retained, or lost by an overwrite.
* `Sound` is what the cache is for — every value stored is retrievable or was destroyed, once —
  and the main result says that a run is sound exactly when no `set` meets a key still held.
-/

set_option autoImplicit false

namespace Borrrdex

open FiniteMap

variable {K V : Type} [DecidableEq K]

/-- A cache: `list` holds the nodes from the back of the source's list to its front. -/
structure LruCache (K V : Type) where
  list : List (K × V)
  map : Finmap fun _ : K ↦ V
  capacity : ℕ
  destructor : Bool

namespace LruCache

/-- The constructor. -/
def new (capacity : ℕ) (destructor : Bool) : LruCache K V :=
  { list := [], map := ∅, capacity := capacity, destructor := destructor }

/-- `get`: `none` is the answer `false`. -/
def get (c : LruCache K V) (key : K) : Option V :=
  c.map.lookup key

/-- The eviction loop of `set`.  It returns the nodes and the map that are left and the values
handed to the destructor, in order; `none` is a `pop_back` of the empty list. -/
def evict (capacity : ℕ) (destructor : Bool) :
    List (K × V) → (Finmap fun _ : K ↦ V) → Option (List (K × V) × (Finmap fun _ : K ↦ V) × List V)
  | [], map => if map.keys.card ≥ capacity then none else some ([], map, [])
  | back :: list, map =>
    if map.keys.card ≥ capacity then do
      let (list', map', freed) ← evict capacity destructor list (map.erase back.1)
      some (list', map', if destructor then back.2 :: freed else freed)
    else some (back :: list, map, [])

/-- `set`, with the values its evictions destroyed. -/
def set (c : LruCache K V) (key : K) (val : V) : Option (LruCache K V × List V) :=
  if key ∈ c.map then
    some ({ c with map := c.map.insert key val }, [])
  else do
    let (list, map, freed) ← evict c.capacity c.destructor c.list c.map
    some ({ c with list := list ++ [(key, val)], map := map.insert key val }, freed)

/-- The values `get` can still return. -/
def retained (c : LruCache K V) : Multiset V :=
  c.map.entries.map Sigma.snd

/-! ## One call -/

/-- The invariant of the two copies: the list and the map hold the same keys, each once, and no
more of them than the capacity. -/
structure Entries (c : LruCache K V) : Prop where
  nodup : (c.list.map Prod.fst).Nodup
  keys : c.map.keys = (c.list.map Prod.fst).toFinset
  card_le : c.map.keys.card ≤ c.capacity

theorem entries_new (capacity : ℕ) (destructor : Bool) :
    Entries (new capacity destructor : LruCache K V) where
  nodup := List.nodup_nil
  keys := by simp [new]
  card_le := by simp [new]

theorem Entries.mem_map {c : LruCache K V} (h : Entries c) (k : K) :
    k ∈ c.map ↔ k ∈ c.list.map Prod.fst := by
  rw [← Finmap.mem_keys, h.keys, List.mem_toFinset]

/-- The size of the map is the length of the list. -/
theorem Entries.card_eq {c : LruCache K V} (h : Entries c) :
    c.map.keys.card = c.list.length := by
  rw [h.keys, List.toFinset_card_of_nodup h.nodup, List.length_map]

/-- A full cache of positive capacity has a node to evict. -/
theorem Entries.exists_back {c : LruCache K V} (h : Entries c) (hc : 1 ≤ c.capacity)
    (hfull : c.capacity ≤ c.map.keys.card) : ∃ back rest, c.list = back :: rest := by
  cases hl : c.list with
  | nil =>
    rw [h.card_eq, hl, List.length_nil] at hfull
    omega
  | cons back rest => exact ⟨back, rest, rfl⟩

/-- **The loop evicts at most one node**: none below the capacity, and the oldest one at it. -/
theorem Entries.evict_eq {c : LruCache K V} (h : Entries c) (hc : 1 ≤ c.capacity) :
    (c.map.keys.card < c.capacity ∧
      evict c.capacity c.destructor c.list c.map = some (c.list, c.map, [])) ∨
    ∃ back rest, c.list = back :: rest ∧ c.map.keys.card = c.capacity ∧
      evict c.capacity c.destructor c.list c.map =
        some (rest, c.map.erase back.1, if c.destructor then [back.2] else []) := by
  rcases Nat.lt_or_ge c.map.keys.card c.capacity with hlt | hfull
  · left
    refine ⟨hlt, ?_⟩
    cases hl : c.list with
    | nil => rw [evict, if_neg (by simpa using hlt)]
    | cons back rest => rw [evict, if_neg (by simpa using hlt)]
  · right
    obtain ⟨back, rest, hl⟩ := h.exists_back hc hfull
    have hcard : c.map.keys.card = c.capacity := le_antisymm h.card_le hfull
    have hmem : back.1 ∈ c.map.keys := by
      rw [h.keys, hl]
      simp
    have hless : ¬ (c.map.erase back.1).keys.card ≥ c.capacity := by
      rw [Finmap.keys_erase, Finset.card_erase_of_mem hmem]
      omega
    refine ⟨back, rest, hl, hcard, ?_⟩
    have hrest : evict c.capacity c.destructor rest (c.map.erase back.1) =
        some (rest, c.map.erase back.1, []) := by
      cases rest with
      | nil => rw [evict, if_neg hless]
      | cons b r => rw [evict, if_neg hless]
    rw [hl, evict, if_pos hfull, hrest]
    rfl

theorem set_of_mem {c : LruCache K V} {k : K} (hk : k ∈ c.map) (v : V) :
    c.set k v = some ({ c with map := c.map.insert k v }, []) :=
  if_pos hk

/-- What a `set` on an absent key does, by whether the cache is full. -/
theorem Entries.set_of_notMem {c : LruCache K V} (h : Entries c) (hc : 1 ≤ c.capacity) {k : K}
    (hk : k ∉ c.map) (v : V) :
    (c.map.keys.card < c.capacity ∧
      c.set k v = some ({ c with list := c.list ++ [(k, v)], map := c.map.insert k v }, [])) ∨
    ∃ back rest, c.list = back :: rest ∧ c.map.keys.card = c.capacity ∧
      c.set k v = some ({ c with list := rest ++ [(k, v)],
                                 map := (c.map.erase back.1).insert k v },
        if c.destructor then [back.2] else []) := by
  rcases h.evict_eq hc with ⟨hlt, he⟩ | ⟨back, rest, hl, hcard, he⟩
  · left
    refine ⟨hlt, ?_⟩
    rw [set, if_neg hk, he]
    rfl
  · right
    refine ⟨back, rest, hl, hcard, ?_⟩
    rw [set, if_neg hk, he]
    rfl

/-- Appending the new key to what is left of the list keeps its keys distinct. -/
theorem Entries.nodup_append {c : LruCache K V} (h : Entries c) {k : K} (hk : k ∉ c.map) (v : V)
    {l : List (K × V)} (hl : l.Sublist c.list) : ((l ++ [(k, v)]).map Prod.fst).Nodup := by
  rw [List.map_append, List.nodup_append]
  refine ⟨h.nodup.sublist (hl.map _), List.nodup_singleton _, ?_⟩
  intro x hx y hy
  obtain rfl : y = k := by simpa using hy
  rintro rfl
  exact hk ((h.mem_map x).mpr ((hl.map _).subset hx))

/-- A `set` keeps the invariant. -/
theorem Entries.set {c c' : LruCache K V} (h : Entries c) (hc : 1 ≤ c.capacity) {k : K} {v : V}
    {freed : List V} (hs : c.set k v = some (c', freed)) : Entries c' := by
  by_cases hk : k ∈ c.map
  · rw [set_of_mem hk] at hs
    obtain ⟨rfl, -⟩ := Prod.mk.inj (Option.some.inj hs)
    have hkeys : (c.map.insert k v).keys = c.map.keys := by
      rw [keys_insert, Finset.insert_eq_of_mem (Finmap.mem_keys.mpr hk)]
    exact { nodup := h.nodup, keys := hkeys.trans h.keys, card_le := hkeys ▸ h.card_le }
  rcases h.set_of_notMem hc hk v with ⟨hlt, he⟩ | ⟨back, rest, hl, hcard, he⟩
  · rw [he] at hs
    obtain ⟨rfl, -⟩ := Prod.mk.inj (Option.some.inj hs)
    refine ⟨h.nodup_append hk v (List.Sublist.refl _), ?_, ?_⟩
    · simp only [keys_insert, h.keys, List.map_append, List.toFinset_append]
      ext x
      simp
    · simp only [keys_insert]
      exact (Finset.card_insert_le _ _).trans hlt
  · rw [he] at hs
    obtain ⟨rfl, -⟩ := Prod.mk.inj (Option.some.inj hs)
    have hnd := h.nodup
    rw [hl, List.map_cons, List.nodup_cons] at hnd
    have hback : back.1 ∈ c.map.keys := by
      rw [h.keys, hl]
      simp
    have hrest : back.1 ∉ (rest.map Prod.fst).toFinset := by
      rw [List.mem_toFinset]
      exact hnd.1
    refine ⟨h.nodup_append hk v (hl ▸ List.sublist_cons_self back rest), ?_, ?_⟩
    · simp only [keys_insert, Finmap.keys_erase, h.keys, hl, List.map_cons, List.toFinset_cons,
        Finset.erase_insert hrest, List.map_append, List.toFinset_append]
      ext x
      simp
    · simp only [keys_insert, Finmap.keys_erase]
      have h1 := Finset.card_insert_le k (c.map.keys.erase back.1)
      rw [Finset.card_erase_of_mem hback] at h1
      omega

/-! ### What `get` answers afterwards -/

/-- An eviction only takes away. -/
theorem lookup_of_evict {capacity : ℕ} {destructor : Bool} {list list' : List (K × V)}
    {map map' : Finmap fun _ : K ↦ V} {freed : List V}
    (h : evict capacity destructor list map = some (list', map', freed)) {k : K} {v : V}
    (hk : map'.lookup k = some v) : map.lookup k = some v := by
  induction list generalizing map list' map' freed with
  | nil =>
    rw [evict] at h
    split at h
    · cases h
    · cases h
      exact hk
  | cons back list ih =>
    rw [evict] at h
    split at h
    · obtain ⟨⟨list'', map'', freed'⟩, hevict, h⟩ := Option.bind_eq_some_iff.mp h
      cases h
      have herase := ih hevict hk
      rw [lookup_erase_eq] at herase
      split at herase
      · cases herase
      · exact herase
    · cases h
      exact hk

/-- What `get` finds after a `set` is the value set or was there before. -/
theorem get_of_set {c c' : LruCache K V} {k : K} {v : V} {freed : List V}
    (h : c.set k v = some (c', freed)) {k' : K} {v' : V} (hget : c'.get k' = some v') :
    (k' = k ∧ v' = v) ∨ c.get k' = some v' := by
  have hinsert : ∀ {map : Finmap fun _ : K ↦ V}, (map.insert k v).lookup k' = some v' →
      (k' = k ∧ v' = v) ∨ map.lookup k' = some v' := by
    intro map hl
    rw [lookup_insert_eq] at hl
    split at hl
    · next hk => exact .inl ⟨hk, (Option.some.inj hl).symm⟩
    · exact .inr hl
  rw [set] at h
  split at h
  · cases h
    exact hinsert hget
  · obtain ⟨⟨list, map, freed'⟩, hevict, h⟩ := Option.bind_eq_some_iff.mp h
    cases h
    exact (hinsert hget).imp_right (lookup_of_evict hevict)

/-! ### The values retained -/

/-- An overwrite keeps the number of values retained. -/
theorem card_retained_insert {m : Finmap fun _ : K ↦ V} {k : K} (hk : k ∈ m) (v : V) :
    (m.insert k v).entries.card = m.entries.card := by
  obtain ⟨w, hw⟩ := Finmap.mem_iff.mp hk
  rw [entries_of_lookup hw, entries_of_lookup (Finmap.lookup_insert m), erase_insert_self]
  simp

/-! ## Runs -/

/-- One call a client makes. -/
inductive Call (K V : Type) where
  | get (key : K)
  | set (key : K) (val : V)

/-- A call's effect, with the values it destroyed. -/
def call (c : LruCache K V) : Call K V → Option (LruCache K V × List V)
  | .get _ => some (c, [])
  | .set key val => c.set key val

/-- A run of calls, with every value destroyed on the way. -/
def run (c : LruCache K V) : List (Call K V) → Option (LruCache K V × List V)
  | [] => some (c, [])
  | a :: calls => do
    let (c₁, freed₁) ← c.call a
    let (c₂, freed₂) ← c₁.run calls
    some (c₂, freed₁ ++ freed₂)

/-- The values a run stores, one for each `set`. -/
def stored : List (Call K V) → List V
  | [] => []
  | .get _ :: calls => stored calls
  | .set _ val :: calls => val :: stored calls

/-- The value of the latest `set` on a key. -/
def latest (key : K) : List (Call K V) → Option V
  | [] => none
  | .get _ :: calls => latest key calls
  | .set k val :: calls => latest key calls <|> if k = key then some val else none

theorem run_append (c : LruCache K V) (past next : List (Call K V)) :
    c.run (past ++ next) = (do
      let (c₁, freed₁) ← c.run past
      let (c₂, freed₂) ← c₁.run next
      some (c₂, freed₁ ++ freed₂)) := by
  induction past generalizing c with
  | nil =>
    simp only [List.nil_append, run, Option.bind_eq_bind, Option.bind_some]
    cases c.run next <;> rfl
  | cons a past ih =>
    simp only [List.cons_append, run, ih, Option.bind_eq_bind, Option.bind_assoc,
      Option.bind_some, List.append_assoc]

theorem run_snoc {c c' : LruCache K V} {past : List (Call K V)} {freed : List V}
    (h : c.run past = some (c', freed)) (a : Call K V) :
    c.run (past ++ [a]) = (c'.call a).map fun r ↦ (r.1, freed ++ r.2) := by
  rw [run_append, h]
  simp only [run, Option.bind_eq_bind, Option.bind_some]
  cases c'.call a <;> simp

omit [DecidableEq K] in
@[simp] theorem stored_append (past next : List (Call K V)) :
    stored (past ++ next) = stored past ++ stored next := by
  induction past with
  | nil => rfl
  | cons a past ih => cases a <;> simp [stored, ih]

theorem latest_snoc_get (key k : K) (past : List (Call K V)) :
    latest key (past ++ [.get k]) = latest key past := by
  induction past with
  | nil => rfl
  | cons a past ih => cases a <;> simp [latest, ih]

theorem latest_snoc_set (key k : K) (v : V) (past : List (Call K V)) :
    latest key (past ++ [.set k v]) = if k = key then some v else latest key past := by
  induction past with
  | nil => simp [latest]
  | cons a past ih =>
    cases a with
    | get k' => exact ih
    | set k' v' =>
      rw [List.cons_append, latest, ih, latest]
      by_cases hk : k = key
      · simp [hk]
      · simp [hk]

/-- **The cache keeps its promises** after a run `calls` that destroyed `freed`: the two key sets
agree, `get` answers with the latest value set, and the values stored are the ones destroyed and
the ones retained, each once. -/
structure Sound (calls : List (Call K V)) (c : LruCache K V) (freed : List V) : Prop where
  entries : Entries c
  get_eq : ∀ k ∈ c.map, c.get k = latest k calls
  owned : (stored calls : Multiset V) = (freed : Multiset V) + c.retained
  not_freed : (stored calls).Nodup → ∀ k v, c.get k = some v → v ∉ freed

/-- No `set` of the run meets a key the cache holds at that point. -/
def NoOverwrite (capacity : ℕ) (calls : List (Call K V)) : Prop :=
  ∀ past k v, past ++ [.set k v] <+: calls →
    ∀ c freed, (new capacity true).run past = some (c, freed) → k ∉ c.map

/-- What every run keeps.  `lost` counts the `set` calls that met a key already held: while there
was none, the two copies of every value agree and nothing stored is out of sight. -/
structure RunInv (capacity : ℕ) (calls : List (Call K V)) (c : LruCache K V) (freed : List V)
    (lost : ℕ) : Prop where
  entries : Entries c
  capacity_eq : c.capacity = capacity
  destructor_eq : c.destructor = true
  get_eq : ∀ k ∈ c.map, c.get k = latest k calls
  card_eq : (stored calls).length = freed.length + c.retained.card + lost
  copies : lost = 0 → ∀ e ∈ c.list, c.map.lookup e.1 = some e.2
  owned : lost = 0 → (stored calls : Multiset V) = (freed : Multiset V) + c.retained

theorem runInv_new (capacity : ℕ) :
    RunInv capacity ([] : List (Call K V)) (new capacity true) [] 0 where
  entries := entries_new capacity true
  capacity_eq := rfl
  destructor_eq := rfl
  get_eq := fun _ hk ↦ absurd hk Finmap.notMem_empty
  card_eq := rfl
  copies := fun _ _ he ↦ absurd he List.not_mem_nil
  owned := fun _ ↦ rfl

theorem RunInv.get {capacity : ℕ} {calls : List (Call K V)} {c : LruCache K V} {freed : List V}
    {lost : ℕ} (h : RunInv capacity calls c freed lost) (k : K) :
    RunInv capacity (calls ++ [.get k]) c freed lost where
  entries := h.entries
  capacity_eq := h.capacity_eq
  destructor_eq := h.destructor_eq
  get_eq := fun x hx ↦ by rw [latest_snoc_get, h.get_eq x hx]
  card_eq := by simpa [stored] using h.card_eq
  copies := h.copies
  owned := fun h0 ↦ by simpa [stored] using h.owned h0

/-- After any `set` the map answers with the latest values: the new one at its key, and the old
ones where they survived. -/
theorem get_eq_insert {calls : List (Call K V)} {m m' : Finmap fun _ : K ↦ V}
    (h : ∀ x ∈ m, m.lookup x = latest x calls)
    (hm : ∀ x w, m'.lookup x = some w → m.lookup x = some w) (k : K) (v : V) :
    ∀ x ∈ m'.insert k v, (m'.insert k v).lookup x = latest x (calls ++ [.set k v]) := by
  intro x hx
  rw [latest_snoc_set]
  by_cases hxk : x = k
  · rw [hxk, Finmap.lookup_insert, if_pos rfl]
  · rw [if_neg (Ne.symm hxk), Finmap.lookup_insert_of_ne _ hxk]
    have hx' : x ∈ m' := (Finmap.mem_insert.mp hx).resolve_left hxk
    obtain ⟨w, hw⟩ := Finmap.mem_iff.mp hx'
    have hxm := hm x w hw
    rw [hw, ← h x (Finmap.mem_of_lookup_eq_some hxm), hxm]

/-- **An overwrite loses a value**: the old one leaves the map and is not destroyed. -/
theorem RunInv.overwrite {capacity : ℕ} {calls : List (Call K V)} {c : LruCache K V}
    {freed : List V} {lost : ℕ} (h : RunInv capacity calls c freed lost) (hc : 1 ≤ capacity)
    {k : K} (hk : k ∈ c.map) (v : V) :
    RunInv capacity (calls ++ [.set k v]) { c with map := c.map.insert k v } freed (lost + 1) where
  entries := h.entries.set (h.capacity_eq ▸ hc) (set_of_mem hk v)
  capacity_eq := h.capacity_eq
  destructor_eq := h.destructor_eq
  get_eq := get_eq_insert h.get_eq (fun _ _ hw ↦ hw) k v
  card_eq := by
    have h1 := h.card_eq
    simp only [retained, Multiset.card_map, stored_append, List.length_append, stored,
      List.length_cons, List.length_nil, card_retained_insert hk] at h1 ⊢
    omega
  copies := fun h0 ↦ absurd h0 (Nat.succ_ne_zero lost)
  owned := fun h0 ↦ absurd h0 (Nat.succ_ne_zero lost)

/-- A node the list keeps still agrees with the map after the insertion of another key. -/
theorem copies_append {l : List (K × V)} {m : Finmap fun _ : K ↦ V} {k : K}
    (h : ∀ e ∈ l, m.lookup e.1 = some e.2) (hk : k ∉ m) (v : V) :
    ∀ e ∈ l ++ [(k, v)], (m.insert k v).lookup e.1 = some e.2 := by
  intro e he
  rcases List.mem_append.mp he with he | he
  · have hne : e.1 ≠ k := fun hek ↦ hk (hek ▸ Finmap.mem_of_lookup_eq_some (h e he))
    rw [Finmap.lookup_insert_of_ne _ hne, h e he]
  · rw [List.mem_singleton.mp he, Finmap.lookup_insert]

/-- The nodes left by an eviction still agree with the map. -/
theorem Entries.copies_erase {c : LruCache K V} (h : Entries c) {back : K × V}
    {rest : List (K × V)} (hl : c.list = back :: rest)
    (hcopies : ∀ e ∈ c.list, c.map.lookup e.1 = some e.2) :
    ∀ e ∈ rest, (c.map.erase back.1).lookup e.1 = some e.2 := by
  intro e he
  have hnd := h.nodup
  rw [hl, List.map_cons, List.nodup_cons] at hnd
  have hne : e.1 ≠ back.1 := fun hx ↦ hnd.1 (hx ▸ List.mem_map_of_mem he)
  rw [Finmap.lookup_erase_ne hne]
  exact hcopies e (hl ▸ List.mem_cons_of_mem back he)

theorem retained_insert {m : Finmap fun _ : K ↦ V} {k : K} (hk : k ∉ m) (v : V) :
    (m.insert k v).entries.map Sigma.snd = v ::ₘ m.entries.map Sigma.snd := by
  rw [Finmap.entries_insert_of_notMem hk, Multiset.map_cons]

/-- A `set` on an absent key below the capacity. -/
theorem RunInv.store {capacity : ℕ} {calls : List (Call K V)} {c : LruCache K V} {freed : List V}
    {lost : ℕ} (h : RunInv capacity calls c freed lost) {k : K} {v : V} (hk : k ∉ c.map)
    (he : Entries { c with list := c.list ++ [(k, v)], map := c.map.insert k v }) :
    RunInv capacity (calls ++ [.set k v])
      { c with list := c.list ++ [(k, v)], map := c.map.insert k v } freed lost where
  entries := he
  capacity_eq := h.capacity_eq
  destructor_eq := h.destructor_eq
  get_eq := get_eq_insert h.get_eq (fun _ _ hw ↦ hw) k v
  card_eq := by
    have h1 := h.card_eq
    simp only [retained, retained_insert hk, Multiset.card_cons, stored_append, stored,
      List.length_append, List.length_cons, List.length_nil] at h1 ⊢
    omega
  copies := fun h0 ↦ copies_append (h.copies h0) hk v
  owned := fun h0 ↦ by
    rw [stored_append, ← Multiset.coe_add, h.owned h0]
    simp only [retained, retained_insert hk, stored]
    rw [← Multiset.singleton_add v, add_assoc, add_comm (Multiset.map _ _)]
    rfl

/-- A `set` on an absent key at the capacity: the oldest node goes, with the value it carries. -/
theorem RunInv.replace {capacity : ℕ} {calls : List (Call K V)} {c : LruCache K V} {freed : List V}
    {lost : ℕ} (h : RunInv capacity calls c freed lost) {k : K} {v : V} (hk : k ∉ c.map)
    {back : K × V} {rest : List (K × V)} (hl : c.list = back :: rest)
    (he : Entries { c with list := rest ++ [(k, v)], map := (c.map.erase back.1).insert k v }) :
    RunInv capacity (calls ++ [.set k v])
      { c with list := rest ++ [(k, v)], map := (c.map.erase back.1).insert k v }
      (freed ++ [back.2]) lost := by
  have hk' : k ∉ c.map.erase back.1 := fun hx ↦ hk (Finmap.mem_erase.mp hx).2
  have hback : back.1 ∈ c.map := by
    rw [h.entries.mem_map, hl]
    simp
  obtain ⟨w, hw⟩ := Finmap.mem_iff.mp hback
  refine ⟨he, h.capacity_eq, h.destructor_eq, ?_, ?_, ?_, ?_⟩
  · refine get_eq_insert h.get_eq ?_ k v
    intro x y hy
    have hx : x ≠ back.1 := by
      rintro rfl
      rw [Finmap.lookup_erase] at hy
      cases hy
    rwa [Finmap.lookup_erase_ne hx] at hy
  · have h1 := h.card_eq
    simp only [retained, entries_of_lookup hw, retained_insert hk', Multiset.card_map,
      Multiset.card_cons, stored_append, stored, List.length_append, List.length_cons,
      List.length_nil] at h1 ⊢
    omega
  · intro h0
    exact copies_append (h.entries.copies_erase hl (h.copies h0)) hk' v
  · intro h0
    have hlook := h.copies h0 back (hl ▸ List.mem_cons_self)
    rw [stored_append, ← Multiset.coe_add, h.owned h0, ← Multiset.coe_add]
    simp only [retained, retained_insert hk', stored, entries_of_lookup hlook, Multiset.map_cons]
    rw [← Multiset.singleton_add v, ← Multiset.singleton_add back.2, ← Multiset.coe_singleton v,
      ← Multiset.coe_singleton back.2, add_assoc, add_assoc, add_assoc]
    congr 2
    exact add_comm _ _

/-! ### Whole runs -/

theorem noOverwrite_snoc_get (capacity : ℕ) (calls : List (Call K V)) (k : K) :
    NoOverwrite capacity (calls ++ [.get k]) ↔ NoOverwrite capacity calls := by
  constructor
  · intro h past x v hp
    exact h past x v (hp.trans (List.prefix_append _ _))
  · intro h past x v hp
    rcases List.prefix_concat_iff.mp hp with he | hp
    · cases (List.append_inj' he rfl).2
    · exact h past x v hp

theorem noOverwrite_snoc_set {capacity : ℕ} {calls : List (Call K V)} {c : LruCache K V}
    {freed : List V} (hr : (new capacity true).run calls = some (c, freed)) (k : K) (v : V) :
    NoOverwrite capacity (calls ++ [.set k v]) ↔ NoOverwrite capacity calls ∧ k ∉ c.map := by
  constructor
  · intro h
    refine ⟨?_, h calls k v (List.prefix_refl _) c freed hr⟩
    intro past x w hp
    exact h past x w (hp.trans (List.prefix_append _ _))
  · rintro ⟨h, hk⟩ past x w hp
    rcases List.prefix_concat_iff.mp hp with he | hp
    · obtain ⟨rfl, hx⟩ := List.append_inj' he rfl
      cases hx
      intro c' freed' hr'
      rw [hr] at hr'
      obtain ⟨rfl, -⟩ := Prod.mk.inj (Option.some.inj hr')
      exact hk
    · exact h past x w hp

/-- **Every run returns and keeps the invariant**, and nothing is lost as long as no `set` met a
key already held. -/
theorem exists_runInv {capacity : ℕ} (hc : 1 ≤ capacity) (calls : List (Call K V)) :
    ∃ c freed lost, (new capacity true).run calls = some (c, freed) ∧
      RunInv capacity calls c freed lost ∧ (lost = 0 ↔ NoOverwrite capacity calls) := by
  induction calls using List.reverseRecOn with
  | nil =>
    refine ⟨_, [], 0, rfl, runInv_new capacity, ?_⟩
    refine iff_of_true rfl fun past k v hp ↦ ?_
    exact absurd (List.prefix_nil.mp hp) (by simp)
  | append_singleton calls a ih =>
    obtain ⟨c, freed, lost, hr, h, hlost⟩ := ih
    cases a with
    | get k =>
      refine ⟨c, freed, lost, ?_, h.get k, hlost.trans (noOverwrite_snoc_get _ _ _).symm⟩
      rw [run_snoc hr]
      simp [call]
    | set k v =>
      have hc' : 1 ≤ c.capacity := h.capacity_eq.symm ▸ hc
      have hno := noOverwrite_snoc_set hr k v
      by_cases hk : k ∈ c.map
      · refine ⟨_, freed, lost + 1, ?_, h.overwrite hc hk v, ?_⟩
        · rw [run_snoc hr, call, set_of_mem hk]
          simp
        · exact iff_of_false (Nat.succ_ne_zero lost) fun h' ↦ (hno.mp h').2 hk
      · have hlost' : lost = 0 ↔ NoOverwrite capacity (calls ++ [.set k v]) := by
          rw [hno, hlost, and_iff_left hk]
        rcases h.entries.set_of_notMem hc' hk v with ⟨-, hs⟩ | ⟨back, rest, hl, -, hs⟩
        · refine ⟨_, freed, lost, ?_, h.store hk (h.entries.set hc' hs), hlost'⟩
          rw [run_snoc hr, call, hs]
          simp
        · refine ⟨_, freed ++ [back.2], lost, ?_, h.replace hk hl (h.entries.set hc' hs), hlost'⟩
          rw [run_snoc hr, call, hs, h.destructor_eq]
          rfl

/-- Values stored once each are destroyed only when out of reach. -/
theorem not_freed_of_owned {calls : List (Call K V)} {c : LruCache K V} {freed : List V}
    (h : (stored calls : Multiset V) = (freed : Multiset V) + c.retained)
    (hnd : (stored calls).Nodup) (k : K) (v : V) (hg : c.get k = some v) : v ∉ freed := by
  intro hv
  have hret : v ∈ c.retained := by
    refine Multiset.mem_map.mpr ⟨⟨k, v⟩, ?_, rfl⟩
    rw [entries_of_lookup hg]
    exact Multiset.mem_cons_self _ _
  rw [← Multiset.coe_nodup, h, Multiset.nodup_add] at hnd
  exact Multiset.disjoint_left.mp hnd.2.2 (Multiset.mem_coe.mpr hv) hret

theorem RunInv.sound_iff {capacity : ℕ} {calls : List (Call K V)} {c : LruCache K V}
    {freed : List V} {lost : ℕ} (h : RunInv capacity calls c freed lost) :
    Sound calls c freed ↔ lost = 0 := by
  constructor
  · intro hs
    have h1 := congrArg Multiset.card hs.owned
    rw [Multiset.card_add, Multiset.coe_card, Multiset.coe_card, h.card_eq] at h1
    omega
  · intro h0
    have howned := h.owned h0
    exact ⟨h.entries, h.get_eq, howned, not_freed_of_owned howned⟩

/-- **When an `lru_cache` keeps its promises**: at every point of a run, exactly when no `set` of
the run meets a key that the cache still holds.  The keys and the answers of `get` are right in
every run (`exists_runInv`); what an overwrite breaks is the ownership of the values. -/
theorem sound_iff_noOverwrite (capacity : ℕ) (hc : 1 ≤ capacity) (calls : List (Call K V)) :
    (∀ past, past <+: calls → ∃ c freed,
      (new capacity true).run past = some (c, freed) ∧ Sound past c freed) ↔
    NoOverwrite capacity calls := by
  constructor
  · intro h
    obtain ⟨c, freed, lost, hr, hinv, hlost⟩ := exists_runInv hc calls
    obtain ⟨c', freed', hr', hs⟩ := h calls (List.prefix_refl _)
    rw [hr] at hr'
    obtain ⟨rfl, rfl⟩ := Prod.mk.inj (Option.some.inj hr')
    exact hlost.mp (hinv.sound_iff.mp hs)
  · intro h past hp
    obtain ⟨c, freed, lost, hr, hinv, hlost⟩ := exists_runInv hc past
    refine ⟨c, freed, hr, hinv.sound_iff.mpr (hlost.mpr ?_)⟩
    intro past' k v hp'
    exact h past' k v (hp'.trans hp)

theorem sound_iff_noOverwrite_two :
    (1 ≤ 2) ∧ ((∀ past, past <+: [Call.set 0 10, .get 0, .set 1 11] → ∃ c freed,
      (new 2 true : LruCache ℕ ℕ).run past = some (c, freed) ∧ Sound past c freed) ↔
    NoOverwrite 2 [Call.set 0 10, .get 0, .set 1 11]) :=
  ⟨by decide, sound_iff_noOverwrite 2 (by decide) _⟩

/-- Two values set under one key and a third under another, at capacity one: the eviction frees
the first value, and the second is neither freed nor reachable. -/
theorem overwritten_value_lost :
    ∃ c, (new 1 true : LruCache ℕ ℕ).run [.set 0 10, .set 0 11, .set 1 12] = some (c, [10]) ∧
      c.get 0 = none ∧ c.get 1 = some 12 ∧
      ¬ Sound [.set 0 10, .set 0 11, .set 1 12] c [10] := by
  refine ⟨_, rfl, rfl, rfl, ?_⟩
  intro h
  have hmem : 11 ∈ ([10] : Multiset ℕ) + {12} := by
    refine Eq.mp (congrArg (11 ∈ ·) h.owned) ?_
    decide
  revert hmem
  decide

end LruCache

end Borrrdex
