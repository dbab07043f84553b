import Borrrdex.Kstd.LruCache
import Borrrdex.Lib.Runs

/-!
# What an `lru_cache` evicts

`set` pushes a new node to the front of the list and takes what it evicts from the back.  Nothing
else ever moves a node: neither a `get` that finds its key nor a `set` that overwrites.  So the list
is in the order of insertion, and what is evicted is what was inserted first.

`Tracked` is a cache with the keys used so far, and `EvictsLeastRecent` is what the name of the
cache promises.  It is kept as long as no key but the one used last is used again while it is held
(`evictsLeastRecent_of_steady`), and no longer: `exists_wrong_eviction` says that any other use of a
held key is followed by a wrong eviction as soon as enough new keys come in.
-/

set_option autoImplicit false

namespace Borrrdex

variable {K V : Type} [DecidableEq K]

/-- The latest use of `a` is before the latest use of `b`, `recent` being the uses, latest first. -/
def OlderUse (recent : List K) (a b : K) : Prop := recent.idxOf b < recent.idxOf a

instance (recent : List K) (a b : K) : Decidable (OlderUse recent a b) :=
  inferInstanceAs (Decidable (_ < _))

/-- A use of a third key changes nothing. -/
theorem olderUse_cons_iff {recent : List K} {k a b : K} (ha : a ≠ k) (hb : b ≠ k) :
    OlderUse (k :: recent) a b ↔ OlderUse recent a b := by
  rw [OlderUse, OlderUse, List.idxOf_cons_ne _ ha.symm, List.idxOf_cons_ne _ hb.symm]
  exact Nat.succ_lt_succ_iff

/-- A key just used is the newest. -/
theorem olderUse_cons_self {recent : List K} {k a : K} (ha : a ≠ k) :
    OlderUse (k :: recent) a k := by
  rw [OlderUse, List.idxOf_cons_self, List.idxOf_cons_ne _ ha.symm]
  exact Nat.succ_pos _

/-- The key used last is used again. -/
theorem OlderUse.repeat {recent : List K} {k a b : K} (hk : recent.head? = some k)
    (h : OlderUse recent a b) : OlderUse (k :: recent) a b := by
  obtain ⟨rest, rfl⟩ : ∃ rest, recent = k :: rest := by
    cases recent with
    | nil => cases hk
    | cons x rest => exact ⟨rest, by rw [Option.some.inj hk]⟩
  have ha : a ≠ k := by
    rintro rfl
    rw [OlderUse, List.idxOf_cons_self] at h
    exact absurd h (Nat.not_lt_zero _)
  by_cases hb : b = k
  · rw [hb]
    exact olderUse_cons_self ha
  · exact (olderUse_cons_iff ha hb).mpr h

theorem not_olderUse {recent : List K} {a b : K} (h : OlderUse recent a b) :
    ¬ OlderUse recent b a :=
  Nat.lt_asymm h

namespace LruCache

/-- The key that a call uses: a `set` its own, a `get` the one it finds. -/
def uses (c : LruCache K V) : Call K V → Option K
  | .get key => if key ∈ c.map then some key else none
  | .set key _ => some key

/-- A cache, and the keys used so far, latest first. -/
structure Tracked (K V : Type) where
  cache : LruCache K V
  recent : List K

/-- One call. -/
def Tracked.step (t : Tracked K V) (a : Call K V) : Option (Tracked K V) := do
  let (cache, _) ← t.cache.call a
  some ⟨cache, (t.cache.uses a).toList ++ t.recent⟩

/-- A cache from its construction on. -/
def tracked (capacity : ℕ) (destructor : Bool) : Machine (Tracked K V) (Call K V) where
  initial t := t = ⟨new capacity destructor, []⟩
  step := Tracked.step

/-- The keys held, from the back of the list to the front. -/
def Tracked.keys (t : Tracked K V) : List K := t.cache.list.map Prod.fst

/-- **Least recently used first**: what the next call evicts was last used before everything that
stays. -/
def EvictsLeastRecent (t : Tracked K V) : Prop :=
  ∀ a t', t.step a = some t' →
    ∀ k ∈ t.cache.map, k ∉ t'.cache.map →
      ∀ k' ∈ t.cache.map, k' ∈ t'.cache.map → OlderUse t.recent k k'

/-- If the call uses a key that is held, it is the key used last. -/
def Steady (t : Tracked K V) (a : Call K V) : Prop :=
  ∀ k, t.cache.uses a = some k → k ∈ t.cache.map → t.recent.head? = some k

/-! ## One call -/

/-- A cache without room for one node cannot take one. -/
theorem Entries.capacity_pos {c : LruCache K V} (h : Entries c) {k : K} (hk : k ∉ c.map) {v : V}
    {r : LruCache K V × List V} (hs : c.set k v = some r) : 1 ≤ c.capacity := by
  rw [Nat.one_le_iff_ne_zero]
  intro hzero
  have hcard := h.card_le
  rw [hzero, Nat.le_zero] at hcard
  have hlist : c.list = [] := List.eq_nil_of_length_eq_zero (h.card_eq ▸ hcard)
  rw [LruCache.set, if_neg hk, hlist, evict, if_pos (by omega)] at hs
  cases hs

/-- **What a call does to the keys**: if it uses no new one, they stay where they are; a new one
goes in front, after the one at the back was taken if there was no room. -/
theorem Entries.step_cases {t t' : Tracked K V} {a : Call K V} (h : Entries t.cache)
    (hstep : t.step a = some t') :
    Entries t'.cache ∧ t'.cache.capacity = t.cache.capacity ∧
      t'.recent = (t.cache.uses a).toList ++ t.recent ∧
      ((t'.keys = t.keys ∧ ∀ k, t.cache.uses a = some k → k ∈ t.keys) ∨
      ∃ k, t.cache.uses a = some k ∧ k ∉ t.keys ∧
        ((t.keys.length < t.cache.capacity ∧ t'.keys = t.keys ++ [k]) ∨
        ∃ back rest, t.keys = back :: rest ∧ t.keys.length = t.cache.capacity ∧
          t'.keys = rest ++ [k])) := by
  obtain ⟨⟨c, freed⟩, hcall, hstep⟩ := Option.bind_eq_some_iff.mp hstep
  obtain rfl := Option.some.inj hstep
  cases a with
  | get k =>
    obtain ⟨rfl, -⟩ := Prod.mk.inj (Option.some.inj hcall)
    refine ⟨h, rfl, rfl, .inl ⟨rfl, fun k' hk' ↦ ?_⟩⟩
    rw [uses] at hk'
    split at hk'
    · next hk =>
      obtain rfl := Option.some.inj hk'
      exact (h.mem_map k).mp hk
    · cases hk'
  | set k v =>
    by_cases hk : k ∈ t.cache.map
    · have hset := set_of_mem hk v
      obtain ⟨rfl, -⟩ := Prod.mk.inj (Option.some.inj (hset.symm.trans hcall))
      refine ⟨?_, rfl, rfl, .inl ⟨rfl, fun k' hk' ↦ ?_⟩⟩
      · have hcard := h.card_le
        have hpos : 0 < t.cache.map.keys.card := Finset.card_pos.mpr ⟨k, Finmap.mem_keys.mpr hk⟩
        exact h.set (by omega) hset
      · obtain rfl := Option.some.inj hk'
        exact (h.mem_map k).mp hk
    · have hpos := h.capacity_pos hk hcall
      have hlen : t.keys.length = t.cache.map.keys.card := by
        rw [h.card_eq, Tracked.keys, List.length_map]
      refine ⟨h.set hpos hcall, ?_, rfl, .inr ⟨k, rfl, mt (h.mem_map k).mpr hk, ?_⟩⟩
      · rcases h.set_of_notMem hpos hk v with ⟨-, hset⟩ | ⟨_, _, -, -, hset⟩
        · obtain ⟨rfl, -⟩ := Prod.mk.inj (Option.some.inj (hset.symm.trans hcall))
          rfl
        · obtain ⟨rfl, -⟩ := Prod.mk.inj (Option.some.inj (hset.symm.trans hcall))
          rfl
      · rcases h.set_of_notMem hpos hk v with ⟨hlt, hset⟩ | ⟨back, rest, hl, hcard, hset⟩
        · obtain ⟨rfl, -⟩ := Prod.mk.inj (Option.some.inj (hset.symm.trans hcall))
          exact .inl ⟨hlen ▸ hlt, by simp [Tracked.keys]⟩
        · obtain ⟨rfl, -⟩ := Prod.mk.inj (Option.some.inj (hset.symm.trans hcall))
          exact .inr ⟨back.1, rest.map Prod.fst, by simp [Tracked.keys, hl], hlen.trans hcard,
            by simp [Tracked.keys]⟩

/-- What is evicted is the key at the back. -/
theorem Entries.evicted {t t' : Tracked K V} {a : Call K V} (h : Entries t.cache)
    (hstep : t.step a = some t') {k : K} (hk : k ∈ t.cache.map) (hk' : k ∉ t'.cache.map) :
    ∃ rest, t.keys = k :: rest := by
  obtain ⟨h', -, -, ⟨hkeys, -⟩ | ⟨new, -, -, ⟨-, hkeys⟩ | ⟨back, rest, hback, -, hkeys⟩⟩⟩ :=
    h.step_cases hstep
  all_goals
    rw [h.mem_map, ← Tracked.keys] at hk
    rw [h'.mem_map, ← Tracked.keys, hkeys] at hk'
  · exact absurd hk hk'
  · exact absurd (List.mem_append_left _ hk) hk'
  · rw [hback, List.mem_cons] at hk
    obtain rfl | hk := hk
    · exact ⟨rest, hback⟩
    · exact absurd (List.mem_append_left _ hk) hk'

/-! ## Steady runs -/

/-- The keys held are in the order of their latest uses. -/
structure InOrder (t : Tracked K V) : Prop where
  entries : Entries t.cache
  sorted : t.keys.Pairwise (OlderUse t.recent)
  newest : t.recent.head? = t.keys.getLast?

theorem inOrder_new (capacity : ℕ) (destructor : Bool) :
    InOrder (⟨new capacity destructor, []⟩ : Tracked K V) where
  entries := entries_new capacity destructor
  sorted := List.Pairwise.nil
  newest := rfl

/-- A new key is newer than all that is held. -/
theorem InOrder.push {t : Tracked K V} {keys : List K} {k : K} (h : InOrder t)
    (hsub : keys.Sublist t.keys) (hk : k ∉ t.keys) :
    (keys ++ [k]).Pairwise (OlderUse (k :: t.recent)) := by
  have hne : ∀ a ∈ keys, a ≠ k := fun a ha ↦ ne_of_mem_of_not_mem (hsub.subset ha) hk
  rw [List.pairwise_append]
  refine ⟨?_, List.pairwise_singleton _ _, fun a ha b hb ↦ ?_⟩
  · refine (h.sorted.sublist hsub).imp_of_mem fun {a b} ha hb hab ↦ ?_
    exact (olderUse_cons_iff (hne a ha) (hne b hb)).mpr hab
  · obtain rfl := List.mem_singleton.mp hb
    exact olderUse_cons_self (hne a ha)

/-- **A steady call keeps the order.** -/
theorem InOrder.step {t t' : Tracked K V} {a : Call K V} (h : InOrder t) (ha : Steady t a)
    (hstep : t.step a = some t') : InOrder t' := by
  obtain ⟨h', -, hrecent, ⟨hkeys, hheld⟩ | ⟨k, huse, hk, hkeys⟩⟩ := h.entries.step_cases hstep
  · cases huse : t.cache.uses a with
    | none =>
      rw [huse, Option.toList_none, List.nil_append] at hrecent
      exact ⟨h', by rw [hrecent, hkeys]; exact h.sorted, by rw [hrecent, hkeys]; exact h.newest⟩
    | some k =>
      have hnew := ha k huse ((h.entries.mem_map k).mpr (hheld k huse))
      rw [huse] at hrecent
      refine ⟨h', ?_, ?_⟩
      · rw [hrecent, hkeys]
        exact h.sorted.imp fun hab ↦ OlderUse.repeat hnew hab
      · rw [hrecent, hkeys, ← h.newest, hnew]
        rfl
  · rw [huse] at hrecent
    obtain ⟨-, hkeys⟩ | ⟨back, rest, hback, -, hkeys⟩ := hkeys
    · refine ⟨h', ?_, ?_⟩
      · rw [hrecent, hkeys]
        exact h.push (List.Sublist.refl _) hk
      · rw [hrecent, hkeys, List.getLast?_append]
        rfl
    · refine ⟨h', ?_, ?_⟩
      · rw [hrecent, hkeys]
        exact h.push (hback ▸ List.sublist_cons_self back rest) hk
      · rw [hrecent, hkeys, List.getLast?_append]
        rfl

variable {capacity : ℕ} {destructor : Bool} {t t' : Tracked K V} {a : Call K V}

theorem inOrder_of_steady (h : (tracked capacity destructor).Reaches Steady t) : InOrder t :=
  h.invariant (fun s (hs : s = _) ↦ hs ▸ inOrder_new capacity destructor)
    fun _ _ _ hs ha hstep ↦ hs.step ha hstep

/-- **Evictions take the least recently used key** as long as every held key that is used again is
the one used last. -/
theorem evictsLeastRecent_of_steady (h : (tracked capacity destructor).Reaches Steady t) :
    EvictsLeastRecent t := by
  have hord := inOrder_of_steady h
  intro a t' hstep k hk hgone k' hk' hstays
  obtain ⟨rest, hkeys⟩ := hord.entries.evicted hstep hk hgone
  have hsorted := hord.sorted
  rw [hkeys, List.pairwise_cons] at hsorted
  rw [hord.entries.mem_map, ← Tracked.keys, hkeys, List.mem_cons] at hk'
  obtain rfl | hk' := hk'
  · exact absurd hstays hgone
  · exact hsorted.1 k' hk'

theorem evictsLeastRecent_two :
    ∃ t : Tracked ℕ ℕ, (tracked 2 true).Reaches Steady t ∧ EvictsLeastRecent t ∧
      t.keys = [0, 1] := by
  have hzero : Steady (⟨new 2 true, []⟩ : Tracked ℕ ℕ) (.set 0 10) := fun _ _ hk ↦
    absurd hk Finmap.notMem_empty
  have hinitial : (tracked 2 true).Reaches Steady (⟨new 2 true, []⟩ : Tracked ℕ ℕ) := .initial rfl
  have hreach := hinitial.step hzero rfl
  have hone : (tracked 2 true).Reaches Steady ⟨_, [1, 0]⟩ := hreach.step (m := .set 1 11) (by
    intro k hk hmem
    obtain rfl := Option.some.inj hk
    exact absurd hmem (by decide)) rfl
  exact ⟨_, hone, evictsLeastRecent_of_steady hone, rfl⟩

/-- A cache for two: the first key is used again, and evicted for the third. -/
theorem not_evictsLeastRecent_after_get :
    ∃ t : Tracked ℕ ℕ, [Call.set 0 10, .set 1 11, .get 0].foldlM Tracked.step ⟨new 2 true, []⟩ =
      some t ∧ ¬ EvictsLeastRecent t := by
  refine ⟨_, rfl, fun h ↦ ?_⟩
  exact absurd (h (.set 2 12) _ rfl 0 (by decide) (by decide) 1 (by decide) (by decide)) (by decide)

/-! ## Other runs -/

/-- A key that is not held is stored. -/
def NewKey (t t' : Tracked K V) : Prop :=
  ∃ k v, k ∉ t.cache.map ∧ t.step (.set k v) = some t'

/-- Two keys are held in the order opposite to that of their latest uses. -/
structure Misplaced (t : Tracked K V) (k k' : K) : Prop where
  entries : Entries t.cache
  order : [k, k'].Sublist t.keys
  older : OlderUse t.recent k' k

/-- As long as new keys can be found, one can be stored. -/
theorem Entries.exists_newKey [Nonempty V] (h : Entries t.cache) (hpos : 1 ≤ t.cache.capacity)
    (hkeys : ∀ s : Finset K, s.card ≤ t.cache.capacity → ∃ k, k ∉ s) :
    ∃ k v t', k ∉ t.cache.map ∧ t.step (.set k v) = some t' := by
  obtain ⟨k, hk⟩ := hkeys _ h.card_le
  rw [Finmap.mem_keys] at hk
  obtain ⟨v⟩ := ‹Nonempty V›
  obtain ⟨-, hset⟩ | ⟨_, _, -, -, hset⟩ := h.set_of_notMem hpos hk v
  · exact ⟨k, v, _, hk, by rw [Tracked.step, call, hset]; rfl⟩
  · exact ⟨k, v, _, hk, by rw [Tracked.step, call, hset]; rfl⟩

/-- **One new key**: a key that is misplaced comes nearer to the back, or is the one at the back. -/
theorem Misplaced.newKey {k k' new : K} {v : V} (h : Misplaced t k k') (hnew : new ∉ t.cache.map)
    (hstep : t.step (.set new v) = some t') :
    ¬ EvictsLeastRecent t ∨ Misplaced t' k k' ∧ t'.cache.capacity = t.cache.capacity ∧
      t'.cache.capacity - t'.keys.length + t'.keys.idxOf k <
        t.cache.capacity - t.keys.length + t.keys.idxOf k := by
  have hmem : ∀ x ∈ [k, k'], x ∈ t.keys := fun x hx ↦ h.order.subset hx
  have hne : ∀ x ∈ t.keys, x ≠ new := fun x hx ↦
    ne_of_mem_of_not_mem hx (mt (h.entries.mem_map new).mpr hnew)
  have holder : OlderUse (new :: t.recent) k' k :=
    (olderUse_cons_iff (hne k' (hmem k' (by simp))) (hne k (hmem k (by simp)))).mpr h.older
  obtain ⟨h', hcap, hrecent, ⟨hkeys, hheld⟩ | ⟨_, huse, hk, hkeys⟩⟩ := h.entries.step_cases hstep
  · exact absurd ((h.entries.mem_map new).mpr (hheld new rfl)) hnew
  obtain rfl := Option.some.inj huse
  have hrecent' : t'.recent = new :: t.recent := hrecent
  obtain ⟨hlt, hkeys⟩ | ⟨back, rest, hback, hfull, hkeys⟩ := hkeys
  · right
    refine ⟨⟨h', ?_, hrecent' ▸ holder⟩, hcap, ?_⟩
    · rw [hkeys]
      exact h.order.trans (List.sublist_append_left _ _)
    · rw [hcap, hkeys, List.idxOf_append_of_mem (hmem k (by simp)), List.length_append,
        List.length_singleton]
      omega
  · have hnodup : t.keys.Nodup := h.entries.nodup
    rw [hback, List.nodup_cons] at hnodup
    have horder := h.order
    rw [hback] at horder
    obtain hsub | ⟨hhead, hsub⟩ : [k, k'].Sublist rest ∨ k = back ∧ [k'].Sublist rest := by
      cases horder with
      | cons _ hsub => exact .inl hsub
      | cons_cons _ hsub => exact .inr ⟨rfl, hsub⟩
    · right
      have hk : k ∈ rest := hsub.subset (by simp)
      have hkb : k ≠ back := ne_of_mem_of_not_mem hk hnodup.1
      refine ⟨⟨h', ?_, hrecent' ▸ holder⟩, hcap, ?_⟩
      · rw [hkeys]
        exact hsub.trans (List.sublist_append_left _ _)
      · rw [hcap, hkeys, hback, List.idxOf_append_of_mem hk, List.idxOf_cons_ne _ hkb.symm,
          List.length_append, List.length_singleton, List.length_cons]
        omega
    · left
      intro hall
      subst hhead
      have hk' : k' ∈ rest := List.singleton_sublist.mp hsub
      refine not_olderUse h.older (hall _ t' hstep k ?_ ?_ k' ?_ ?_)
      all_goals first | rw [h.entries.mem_map, ← Tracked.keys] | rw [h'.mem_map, ← Tracked.keys]
      · exact hmem k (by simp)
      · rw [hkeys, List.mem_append, List.mem_singleton, not_or]
        exact ⟨hnodup.1, hne k (hmem k (by simp))⟩
      · exact hmem k' (by simp)
      · rw [hkeys]
        exact List.mem_append_left _ hk'

/-- **Keys in the wrong order are evicted in the wrong order** when new ones come in. -/
theorem Misplaced.exists_wrong_eviction [Nonempty V] {k k' : K} (h : Misplaced t k k')
    (hkeys : ∀ s : Finset K, s.card ≤ t.cache.capacity → ∃ k, k ∉ s) :
    ∃ t', Relation.ReflTransGen NewKey t t' ∧ ¬ EvictsLeastRecent t' := by
  set rank : Tracked K V → ℕ := fun t ↦ t.cache.capacity - t.keys.length + t.keys.idxOf k
  suffices hcloser : ∀ t : Tracked K V,
      (Misplaced t k k' ∧ ∀ s : Finset K, s.card ≤ t.cache.capacity → ∃ k, k ∉ s) →
        ¬ ¬ EvictsLeastRecent t → ∃ t', NewKey t t' ∧
          (Misplaced t' k k' ∧ ∀ s : Finset K, s.card ≤ t'.cache.capacity → ∃ k, k ∉ s) ∧
          rank t' < rank t from reaches_goal rank hcloser ⟨h, hkeys⟩
  rintro t ⟨h, hkeys⟩ hright
  have hpos : 1 ≤ t.cache.capacity := by
    have hlen := h.order.length_le
    have hcard := h.entries.card_le
    rw [h.entries.card_eq] at hcard
    rw [Tracked.keys, List.length_map] at hlen
    exact (Nat.le_of_succ_le hlen).trans hcard
  obtain ⟨new, v, t', hnew, hstep⟩ := h.entries.exists_newKey hpos hkeys
  obtain hwrong | ⟨h', hcap, hlt⟩ := h.newKey hnew hstep
  · exact absurd hwrong hright
  · exact ⟨t', ⟨new, v, hnew, hstep⟩, ⟨h', hcap ▸ hkeys⟩, hlt⟩

/-- **Any other use of a held key goes wrong**: after it, as many new keys as it takes to get to
that key end in an eviction of a key used later than one that stays. -/
theorem exists_wrong_eviction [Nonempty V]
    (hkeys : ∀ s : Finset K, s.card ≤ capacity → ∃ k, k ∉ s)
    (h : (tracked capacity destructor).Reaches Steady t) (ha : ¬ Steady t a)
    (hstep : t.step a = some t') :
    ∃ t'', Relation.ReflTransGen NewKey t' t'' ∧ ¬ EvictsLeastRecent t'' := by
  have hord := inOrder_of_steady h
  have hcap : t.cache.capacity = capacity := by
    have hinitial : ∀ s : Tracked K V, (tracked capacity destructor).initial s →
        InOrder s ∧ s.cache.capacity = capacity := by
      rintro s rfl
      exact ⟨inOrder_new capacity destructor, rfl⟩
    refine (h.invariant hinitial ?_).2
    rintro s a s' ⟨hs, hcap⟩ ha hstep
    exact ⟨hs.step ha hstep, (hs.entries.step_cases hstep).2.1.trans hcap⟩
  rw [Steady] at ha
  push Not at ha
  obtain ⟨k, huse, hk, hnewest⟩ := ha
  obtain ⟨h', hcap', hrecent, ⟨hkeys', -⟩ | ⟨_, huse', hk', -⟩⟩ := hord.entries.step_cases hstep
  · -- the key used last is at the front, and `k` is behind it
    have hmem : k ∈ t.keys := (hord.entries.mem_map k).mp hk
    obtain ⟨last, hlast⟩ : ∃ last, t.keys.getLast? = some last :=
      ⟨_, List.getLast?_eq_some_getLast (List.ne_nil_of_mem hmem)⟩
    have hne : k ≠ last := by
      rintro rfl
      exact hnewest (hord.newest.trans hlast)
    obtain ⟨rest, hrest⟩ := List.getLast?_eq_some_iff.mp hlast
    have hk : k ∈ rest := by
      rw [hrest, List.mem_append, List.mem_singleton] at hmem
      exact hmem.resolve_right hne
    refine Misplaced.exists_wrong_eviction (show Misplaced _ k last from ⟨h', ?_, ?_⟩)
      (hcap' ▸ hcap ▸ hkeys)
    · rw [hkeys', hrest]
      exact (List.singleton_sublist.mpr hk).append (List.Sublist.refl [last])
    · rw [hrecent, huse]
      exact olderUse_cons_self hne.symm
  · obtain rfl := Option.some.inj (huse.symm.trans huse')
    exact absurd ((hord.entries.mem_map k).mp hk) hk'

end LruCache

end Borrrdex
