import Borrrdex.Lib.AreaRows
import Borrrdex.Lib.DoubleLinks
import Borrrdex.Memory.BoundaryTags

/-!
# What the heap looks like

The runs of pages, the tags of each run from one end to the other, and the lists of free areas: a
`Layout` is the picture behind the links in memory, and `HeapRep` says that they are its links.
There are six things that happen to it: a run comes or goes, an area is cut in two or joined with
the one behind it, and a tag is put in a list or taken out.  `malloc` and `free` are made of these.

Between two of them a tag may be in no list without being in use: what a tag in use promises is
asked of all but those of a set.
-/

set_option autoImplicit false

universe u

namespace Borrrdex
namespace Liballoc

open AreaRows DoubleLinks StoredRecords

/-- The picture of a heap. -/
structure Layout where
  /-- The runs of pages, as an address and a number of pages. -/
  runs : List (ℕ × ℕ)
  /-- The tags of the run at an address. -/
  tags : ℕ → List ℕ
  /-- The tags in the lists. -/
  lists : ℕ → List ℕ

namespace Layout

/-- One of the tags. -/
def IsTag (L : Layout) (a : ℕ) : Prop := ∃ c ∈ L.runs, a ∈ L.tags c.1

/-- All of them. -/
def tagSet (L : Layout) : Set ℕ := {a | L.IsTag a}

/-- Other tags in a run. -/
def setTags (L : Layout) (base : ℕ) (l : List ℕ) : Layout :=
  { L with tags := Function.update L.tags base l }

/-- Other tags in a list. -/
def setList (L : Layout) (i : ℕ) (l : List ℕ) : Layout :=
  { L with lists := Function.update L.lists i l }

end Layout

variable {σ : Type u} {h h' : State σ} {L : Layout} {X Y S : Set ℕ} {a b i n r x : ℕ}
  {c d : ℕ × ℕ} {l u v : List ℕ} {f : TagField}

/-- The areas fill the runs, and the tags are linked. -/
structure Tiled (h : State σ) (L : Layout) : Prop where
  apart : L.runs.Pairwise fun c d ↦ c.1 + 4096 * c.2 ≤ d.1 ∨ d.1 + 4096 * d.2 ≤ c.1
  run : ∀ c ∈ L.runs, 0 < c.1 ∧ 16 ≤ c.2 ∧ 4096 * c.2 < 2 ^ 32 ∧ c.1 + 4096 * c.2 ≤ 2 ^ 64
  row : ∀ c ∈ L.runs,
    InRow 48 (h.tag · .realSize) c.1 (L.tags c.1) (c.1 + 4096 * c.2)
  split : ∀ c ∈ L.runs, LinkedList (h.tag · .splitLeft) (h.tag · .splitRight) (L.tags c.1)

/-- The lists are linked, and have the tags with their index. -/
structure Listed (h : State σ) (L : Layout) : Prop where
  front : ∀ i, h.freePages i = (L.lists i).headD 0
  linked : ∀ i, LinkedList (h.tag · .prev) (h.tag · .next) (L.lists i)
  mem_iff : ∀ i a, a ∈ L.lists i ↔ L.IsTag a ∧ h.InList a ∧ h.tag a .index = i
  unlisted : ∀ a, L.IsTag a → ¬ h.InList a → h.tag a .next = 0 ∧ h.tag a .prev = 0

/-- What is in the fields, but for the sizes of the tags in a set. -/
structure Labelled (h : State σ) (L : Layout) (X : Set ℕ) : Prop where
  status : ∀ a, L.IsTag a → h.tag a .index = noIndex ∨
    h.tag a .index = listIndex (room (h.tag a .realSize))
  magic : ∀ a, L.IsTag a → h.tag a .magic = liballocMagic
  fits : ∀ a, L.IsTag a → ¬ h.InList a → a ∉ X → 48 + h.tag a .size ≤ h.tag a .realSize

/-- Of two neighbours at most one is free. -/
def Alternating (h : State σ) (l : List ℕ) : Prop := l.IsChain fun a b ↦ ¬(h.InList a ∧ h.InList b)

/-- **The heap is as in the picture.** -/
structure HeapRep (h : State σ) (L : Layout) (X : Set ℕ) : Prop
    extends Tiled h L, Listed h L, Labelled h L X where
  coalesced : ∀ c ∈ L.runs, Alternating h (L.tags c.1)

/-- The tag has a run for itself. -/
def State.Whole (h : State σ) (a : ℕ) : Prop := h.tag a .splitLeft = 0 ∧ h.tag a .splitRight = 0

instance (h : State σ) (a : ℕ) : Decidable (h.Whole a) := instDecidableAnd

/-- How many of the tags in a list have a run for themselves. -/
def wholeCount (h : State σ) (L : Layout) (i : ℕ) : ℕ := (L.lists i).countP fun a ↦ h.Whole a

/-- A tag that is in no list says so. -/
theorem Labelled.index_of_not_inList (hR : Labelled h L X) (hx : L.IsTag x) (hno : ¬ h.InList x) :
    h.tag x .index = noIndex := by
  refine (hR.status x hx).resolve_right fun hidx ↦ hno ?_
  have hlt := listIndex_lt (room (h.tag x .realSize))
  rw [State.InList, hidx]
  omega

/-! ## Runs -/

theorem Tiled.run_ext (hT : Tiled h L) (hc : c ∈ L.runs) (hd : d ∈ L.runs) (hne : c ≠ d) :
    c.1 + 4096 * c.2 ≤ d.1 ∨ d.1 + 4096 * d.2 ≤ c.1 := by
  obtain ⟨s, t, hst⟩ := List.append_of_mem hc
  have hapart := hT.apart
  rw [hst] at hapart hd
  obtain ⟨-, hct, hcross⟩ := List.pairwise_append.mp hapart
  rcases List.mem_append.mp hd with hd | hd
  · exact (hcross d hd c List.mem_cons_self).symm
  · rcases List.mem_cons.mp hd with rfl | hd
    · exact absurd rfl hne
    · exact (List.pairwise_cons.mp hct).1 d hd

/-- A run is known by its address. -/
theorem Tiled.run_eq (hT : Tiled h L) (hc : c ∈ L.runs) (hd : d ∈ L.runs) (heq : c.1 = d.1) :
    c = d := by
  by_contra hne
  obtain ⟨-, hpages, -⟩ := hT.run c hc
  obtain ⟨-, hpages', -⟩ := hT.run d hd
  rcases hT.run_ext hc hd hne with hle | hle <;> omega

theorem Tiled.inside (hT : Tiled h L) (hc : c ∈ L.runs) (ha : a ∈ L.tags c.1) :
    c.1 ≤ a ∧ 48 ≤ h.tag a .realSize ∧ a + h.tag a .realSize ≤ c.1 + 4096 * c.2 :=
  (hT.row c hc).inside ha

/-- The areas of two tags do not overlap. -/
theorem Tiled.areas (hT : Tiled h L) (ha : L.IsTag a) (hb : L.IsTag b) (hne : a ≠ b) :
    a + h.tag a .realSize ≤ b ∨ b + h.tag b .realSize ≤ a := by
  obtain ⟨c, hc, ha⟩ := ha
  obtain ⟨d, hd, hb⟩ := hb
  by_cases hcd : c = d
  · subst hcd
    exact (hT.row c hc).apart ha hb hne
  · obtain ⟨halo, -, hahi⟩ := hT.inside hc ha
    obtain ⟨hblo, -, hbhi⟩ := hT.inside hd hb
    rcases hT.run_ext hc hd hcd with hle | hle
    · exact .inl (by omega)
    · exact .inr (by omega)

/-- A tag is in one run only. -/
theorem Tiled.same_run (hT : Tiled h L) (hc : c ∈ L.runs) (hd : d ∈ L.runs) (ha : a ∈ L.tags c.1)
    (ha' : a ∈ L.tags d.1) : c = d := by
  by_contra hne
  obtain ⟨halo, hreal, hahi⟩ := hT.inside hc ha
  obtain ⟨hblo, -, hbhi⟩ := hT.inside hd ha'
  rcases hT.run_ext hc hd hne with hle | hle <;> omega

theorem Tiled.bounds (hT : Tiled h L) (ha : L.IsTag a) :
    0 < a ∧ 48 ≤ h.tag a .realSize ∧ a + h.tag a .realSize ≤ 2 ^ 64 := by
  obtain ⟨c, hc, ha⟩ := ha
  obtain ⟨hpos, -, -, hbelow⟩ := hT.run c hc
  obtain ⟨hlo, hreal, hhi⟩ := hT.inside hc ha
  exact ⟨by omega, hreal, by omega⟩

/-- **The tags do not overlap.** -/
theorem Tiled.separate (hT : Tiled h L) : Separate L.tagSet where
  pos a ha := (hT.bounds ha).1
  below a ha := by
    obtain ⟨-, hreal, hbelow⟩ := hT.bounds ha
    omega
  apart a ha b hb := by
    by_cases hne : a = b
    · exact .inl hne
    · obtain ⟨-, hreal, -⟩ := hT.bounds ha
      obtain ⟨-, hreal', -⟩ := hT.bounds hb
      rcases hT.areas ha hb hne with hle | hle
      · exact .inr (.inl (by omega))
      · exact .inr (.inr (by omega))

/-- The tags beside a tag. -/
theorem Tiled.beside (hT : Tiled h L) (hc : c ∈ L.runs) (htags : L.tags c.1 = u ++ a :: v) :
    h.tag a .splitLeft = u.getLastD 0 ∧ h.tag a .splitRight = v.headD 0 := by
  have hsplit := hT.split c hc
  rw [htags] at hsplit
  exact hsplit.at

theorem Layout.isTag_of_mem (hc : c ∈ L.runs) (htags : L.tags c.1 = l) (ha : a ∈ l) : L.IsTag a :=
  ⟨c, hc, htags ▸ ha⟩

theorem tagOrNull_headD (hl : ∀ a ∈ l, a ∈ S) : TagOrNull S (l.headD 0) := by
  cases l with
  | nil => exact fun h0 ↦ absurd rfl h0
  | cons a l => exact fun _ ↦ hl a List.mem_cons_self

theorem tagOrNull_getLastD (hl : ∀ a ∈ l, a ∈ S) : TagOrNull S (l.getLastD 0) := by
  rcases List.eq_nil_or_concat l with rfl | ⟨l, a, rfl⟩
  · exact fun h0 ↦ absurd rfl h0
  · rw [List.concat_eq_append, getLastD_append]
    exact fun _ ↦ hl a (by simp)

/-- The areas of neighbours are within the run. -/
theorem Tiled.sum_lt (hT : Tiled h L) (hc : c ∈ L.runs) (htags : L.tags c.1 = u ++ a :: b :: v) :
    b = a + h.tag a .realSize ∧ h.tag a .realSize + h.tag b .realSize < 2 ^ 32 := by
  obtain ⟨-, -, hlt, -⟩ := hT.run c hc
  have hrow := hT.row c hc
  rw [htags] at hrow
  have hnext := hrow.next_eq
  obtain ⟨halo, -, -⟩ := hrow.inside (a := a) (by simp)
  obtain ⟨-, -, hbhi⟩ := hrow.inside (a := b) (by simp)
  exact ⟨hnext, by omega⟩

/-! ## Other tags in a run -/

theorem Tiled.setTags_ne (hT : Tiled h L) (hc : c ∈ L.runs) (hd : d ∈ L.runs) (hne : d ≠ c) :
    (L.setTags c.1 l).tags d.1 = L.tags d.1 :=
  Function.update_of_ne (fun heq ↦ hne (hT.run_eq hd hc heq)) ..

theorem setTags_self : (L.setTags c.1 l).tags c.1 = l := Function.update_self ..

theorem Tiled.isTag_setTags (hT : Tiled h L) (hc : c ∈ L.runs) :
    (L.setTags c.1 l).IsTag x ↔ x ∈ l ∨ L.IsTag x ∧ x ∉ L.tags c.1 := by
  constructor
  · rintro ⟨d, hd, hx⟩
    by_cases hdc : d = c
    · rw [hdc, setTags_self] at hx
      exact .inl hx
    · rw [hT.setTags_ne hc hd hdc] at hx
      exact .inr ⟨⟨d, hd, hx⟩, fun hxc ↦ hdc (hT.same_run hd hc hx hxc)⟩
  · rintro (hx | ⟨⟨d, hd, hx⟩, hxc⟩)
    · exact ⟨c, hc, setTags_self.symm ▸ hx⟩
    · have hdc : d ≠ c := by
        rintro rfl
        exact hxc hx
      exact ⟨d, hd, (hT.setTags_ne hc hd hdc).symm ▸ hx⟩

/-- What is to be shown for a run whose tags are others, when the other runs are as before. -/
theorem Tiled.setTags (hT : Tiled h L) (hc : c ∈ L.runs)
    (hrow : InRow 48 (h'.tag · .realSize) c.1 l (c.1 + 4096 * c.2))
    (hsplit : LinkedList (h'.tag · .splitLeft) (h'.tag · .splitRight) l)
    (hrest : ∀ x, L.IsTag x → x ∉ L.tags c.1 → h'.tag x .realSize = h.tag x .realSize ∧
      h'.tag x .splitLeft = h.tag x .splitLeft ∧ h'.tag x .splitRight = h.tag x .splitRight) :
    Tiled h' (L.setTags c.1 l) := by
  have hkeep : ∀ d ∈ L.runs, d ≠ c → ∀ x ∈ L.tags d.1, h'.tag x .realSize = h.tag x .realSize ∧
      h'.tag x .splitLeft = h.tag x .splitLeft ∧ h'.tag x .splitRight = h.tag x .splitRight :=
    fun d hd hdc x hx ↦ hrest x ⟨d, hd, hx⟩ fun hxc ↦ hdc (hT.same_run hd hc hx hxc)
  refine ⟨hT.apart, hT.run, fun d hd ↦ ?_, fun d hd ↦ ?_⟩
  · by_cases hdc : d = c
    · rw [hdc, setTags_self]
      exact hrow
    · rw [hT.setTags_ne hc hd hdc]
      exact (hT.row d hd).congr fun x hx ↦ (hkeep d hd hdc x hx).1
  · by_cases hdc : d = c
    · rw [hdc, setTags_self]
      exact hsplit
    · rw [hT.setTags_ne hc hd hdc]
      exact (hT.split d hd).congr (fun x hx ↦ (hkeep d hd hdc x hx).2.1)
        fun x hx ↦ (hkeep d hd hdc x hx).2.2

theorem mem_middle (hnodup : (u ++ b :: v).Nodup) :
    x ∈ u ++ v ↔ x ∈ u ++ b :: v ∧ x ≠ b := by
  rw [List.perm_middle.mem_iff, List.mem_cons]
  obtain ⟨hb, -⟩ := List.nodup_cons.mp (List.nodup_middle.mp hnodup)
  constructor
  · intro hx
    refine ⟨.inr hx, ?_⟩
    rintro rfl
    exact hb hx
  · rintro ⟨hx, hne⟩
    exact hx.resolve_left hne

/-- The tags, when one of a run is gone. -/
theorem Tiled.isTag_remove (hT : Tiled h L) (hc : c ∈ L.runs) (htags : L.tags c.1 = u ++ b :: v) :
    (L.setTags c.1 (u ++ v)).IsTag x ↔ L.IsTag x ∧ x ≠ b := by
  have hnodup := (hT.split c hc).nodup
  rw [htags] at hnodup
  rw [hT.isTag_setTags hc, mem_middle hnodup, htags]
  constructor
  · rintro (⟨hx, hne⟩ | ⟨hx, hxc⟩)
    · exact ⟨Layout.isTag_of_mem hc htags hx, hne⟩
    · refine ⟨hx, ?_⟩
      rintro rfl
      exact hxc (by simp)
  · rintro ⟨hx, hne⟩
    by_cases hxc : x ∈ u ++ b :: v
    · exact .inl ⟨hxc, hne⟩
    · exact .inr ⟨hx, hxc⟩

/-- What the tags that are joined and their neighbours have in their fields afterwards. -/
def Joined (h h' : State σ) (S : Set ℕ) (a b r : ℕ) : Prop :=
  ∀ x ∈ S, ∀ f, h'.tag x f =
    if x = a ∧ f = .realSize then h.tag a .realSize + h.tag b .realSize
    else if x = a ∧ f = .splitRight then r
    else if x = r ∧ f = .splitLeft then a
    else h.tag x f

theorem Tiled.join (hT : Tiled h L) (hc : c ∈ L.runs) (htags : L.tags c.1 = u ++ a :: b :: v)
    (hr : h.tag b .splitRight = r) (hjoined : Joined h h' L.tagSet a b r) :
    Tiled h' (L.setTags c.1 (u ++ a :: v)) := by
  have hrow := hT.row c hc
  have hsplit := hT.split c hc
  have htags' : L.tags c.1 = (u ++ [a]) ++ b :: v := by rw [htags, List.append_assoc]; rfl
  have hleft : h.tag b .splitLeft = a := by
    rw [(hT.beside hc htags').1, getLastD_append]
    rfl
  have hright : r = v.headD 0 := hr.symm.trans (hT.beside hc htags').2
  have hmem : ∀ x ∈ u ++ a :: b :: v, L.IsTag x := fun x ↦ Layout.isTag_of_mem hc htags
  have hnodup := hsplit.nodup
  rw [htags] at hrow hnodup
  have hua : a ∉ u ++ b :: v := (List.nodup_cons.mp (List.nodup_middle.mp hnodup)).1
  refine hT.setTags hc (hrow.join ?_ fun x hx ↦ ?_) ?_ fun x hx hxc ↦ ?_
  · rw [hjoined a (hmem a (by simp)), if_pos ⟨rfl, rfl⟩]
  · have hxa : x ≠ a := by
      rintro rfl
      exact hua (by simp only [List.mem_append, List.mem_cons] at hx ⊢; tauto)
    rw [hjoined x (hmem x (by simp only [List.mem_append, List.mem_cons] at hx ⊢; tauto))]
    simp [hxa]
  · have heq : u ++ a :: v = (u ++ [a]) ++ v := by rw [List.append_assoc]; rfl
    rw [heq]
    rw [htags'] at hsplit
    have hmem' : ∀ x ∈ u ++ [a] ++ v, L.IsTag x := fun x hx ↦
      hmem x (by simp only [List.mem_append, List.mem_cons] at hx ⊢; tauto)
    refine hsplit.remove (fun x hx ↦ ⟨fun heq ↦ ?_, fun hne ↦ ?_⟩) fun x hx ↦
      ⟨fun heq ↦ ?_, fun hne ↦ ?_⟩
    · rw [hjoined x (hmem' x hx), hleft, heq, hr]
      simp
    · rw [hr] at hne
      rw [hjoined x (hmem' x hx)]
      simp [hne]
    · rw [hleft] at heq
      rw [hjoined x (hmem' x hx), heq, hr]
      simp
    · rw [hleft] at hne
      rw [hjoined x (hmem' x hx)]
      simp [hne]
  · have hxa : x ≠ a := by
      rintro rfl
      exact hxc (by simp [htags])
    have hxr : x ≠ r := by
      rw [hright]
      cases v with
      | nil => exact (hT.bounds hx).1.ne'
      | cons e v =>
        rintro rfl
        exact hxc (by simp [htags])
    refine ⟨?_, ?_, ?_⟩ <;>
    · rw [hjoined x hx]
      simp [hxa, hxr]

/-- The lists are as before if nothing that is linked by them changes, and the tags are the same but
for some that are in no list. -/
theorem Listed.congr {L' : Layout} (hL : Listed h L) (hlists : L'.lists = L.lists)
    (hfree : h'.freePages = h.freePages)
    (hnew : ∀ x, L'.IsTag x → ¬ L.IsTag x →
      ¬ h'.InList x ∧ h'.tag x .next = 0 ∧ h'.tag x .prev = 0)
    (hkept : ∀ x, L.IsTag x → h.InList x → L'.IsTag x)
    (htag : ∀ x, L.IsTag x → ∀ f, f = .prev ∨ f = .next ∨ f = .index → h'.tag x f = h.tag x f) :
    Listed h' L' := by
  have hinList : ∀ x, L.IsTag x → (h'.InList x ↔ h.InList x) := fun x hx ↦ by
    rw [State.InList, htag x hx .index (by simp), State.InList]
  have hmem : ∀ i, ∀ x ∈ L.lists i, L.IsTag x := fun i x hx ↦ ((hL.mem_iff i x).mp hx).1
  refine ⟨fun i ↦ ?_, fun i ↦ ?_, fun i x ↦ ?_, fun x hx hno ↦ ?_⟩
  · rw [hfree, hlists, hL.front]
  · rw [hlists]
    exact (hL.linked i).congr (fun x hx ↦ htag x (hmem i x hx) _ (by simp))
      fun x hx ↦ htag x (hmem i x hx) _ (by simp)
  · rw [hlists, hL.mem_iff]
    constructor
    · rintro ⟨hx, hin, hi⟩
      exact ⟨hkept x hx hin, (hinList x hx).mpr hin, (htag x hx _ (by simp)).trans hi⟩
    · rintro ⟨hx, hin, hi⟩
      have hx : L.IsTag x := by
        by_contra hnot
        exact (hnew x hx hnot).1 hin
      exact ⟨hx, (hinList x hx).mp hin, (htag x hx _ (by simp)).symm.trans hi⟩
  · by_cases hxL : L.IsTag x
    · rw [htag x hxL _ (by simp), htag x hxL _ (by simp)]
      exact hL.unlisted x hxL fun hin ↦ hno ((hinList x hxL).mpr hin)
    · exact (hnew x hx hxL).2

theorem Alternating.mono (hl : Alternating h l) (hin : ∀ x ∈ l, h'.InList x → h.InList x) :
    Alternating h' l :=
  List.IsChain.imp_of_mem_imp (fun x y hx hy hno hboth ↦
    hno ⟨hin x hx hboth.1, hin y hy hboth.2⟩) hl

/-- A run may be cut at a tag that is in no list. -/
theorem alternating_append (ha : ¬ h.InList a) :
    Alternating h (u ++ a :: v) ↔ Alternating h u ∧ Alternating h v := by
  rw [Alternating, List.isChain_append, List.isChain_cons]
  constructor
  · rintro ⟨hu, ⟨-, hv⟩, -⟩
    exact ⟨hu, hv⟩
  · rintro ⟨hu, hv⟩
    refine ⟨hu, ⟨fun y _ hboth ↦ ha hboth.1, hv⟩, fun x _ y hy hboth ↦ ?_⟩
    obtain rfl : a = y := by simpa using hy
    exact ha hboth.2

theorem alternating_cons (ha : ¬ h.InList a) : Alternating h (a :: v) ↔ Alternating h v :=
  (alternating_append (u := []) ha).trans (and_iff_right List.isChain_nil)

/-- **Two areas that are in no list are joined.** -/
theorem HeapRep.join (hR : HeapRep h L X) (hc : c ∈ L.runs)
    (htags : L.tags c.1 = u ++ a :: b :: v) (haX : a ∈ X) (ha : ¬ h.InList a) (hb : ¬ h.InList b)
    (hr : h.tag b .splitRight = r) (hfree : h'.freePages = h.freePages)
    (hjoined : Joined h h' L.tagSet a b r) :
    HeapRep h' (L.setTags c.1 (u ++ a :: v)) X := by
  have hT := hR.toTiled
  have htags' : L.tags c.1 = (u ++ [a]) ++ b :: v := by rw [htags, List.append_assoc]; rfl
  have heq : u ++ a :: v = (u ++ [a]) ++ v := by rw [List.append_assoc]; rfl
  have hisTag : ∀ x, (L.setTags c.1 (u ++ a :: v)).IsTag x ↔ L.IsTag x ∧ x ≠ b := fun x ↦ by
    rw [heq, hT.isTag_remove hc htags']
  have hkeep : ∀ x, L.IsTag x → ∀ f, f ≠ .realSize → f ≠ .splitRight → f ≠ .splitLeft →
      h'.tag x f = h.tag x f := fun x hx f h1 h2 h3 ↦ by
    rw [hjoined x hx]
    simp [h1, h2, h3]
  have hinList : ∀ x, L.IsTag x → (h'.InList x ↔ h.InList x) := fun x hx ↦ by
    rw [State.InList, hkeep x hx .index (by simp) (by simp) (by simp), State.InList]
  have hreal : ∀ x, L.IsTag x → x ≠ a → h'.tag x .realSize = h.tag x .realSize := fun x hx hne ↦ by
    rw [hjoined x hx]
    simp [hne]
  refine { toTiled := hT.join hc htags hr hjoined, toListed := ?_, toLabelled := ?_,
           coalesced := ?_ }
  · refine hR.toListed.congr rfl hfree (fun x hx hnot ↦ absurd ((hisTag x).mp hx).1 hnot)
      (fun x hx hin ↦ ?_) fun x hx f hf ↦ ?_
    · refine (hisTag x).mpr ⟨hx, ?_⟩
      rintro rfl
      exact hb hin
    · rcases hf with rfl | rfl | rfl <;> exact hkeep x hx _ (by simp) (by simp) (by simp)
  · refine ⟨fun x hx ↦ ?_, fun x hx ↦ ?_, fun x hx hno hxX ↦ ?_⟩
    · obtain ⟨hx, -⟩ := (hisTag x).mp hx
      rw [hkeep x hx _ (by simp) (by simp) (by simp)]
      by_cases hxa : x = a
      · rw [hxa] at hx ⊢
        exact .inl (hR.index_of_not_inList hx ha)
      · rw [hreal x hx hxa]
        exact hR.status x hx
    · obtain ⟨hx, -⟩ := (hisTag x).mp hx
      rw [hkeep x hx _ (by simp) (by simp) (by simp)]
      exact hR.magic x hx
    · obtain ⟨hx, -⟩ := (hisTag x).mp hx
      have hxa : x ≠ a := by
        rintro rfl
        exact hxX haX
      rw [hkeep x hx _ (by simp) (by simp) (by simp), hreal x hx hxa]
      exact hR.fits x hx (fun hin ↦ hno ((hinList x hx).mpr hin)) hxX
  · intro d hd
    by_cases hdc : d = c
    · subst hdc
      rw [setTags_self]
      have hold := hR.coalesced d hd
      rw [htags, alternating_append ha, alternating_cons hb] at hold
      have hmem : ∀ x ∈ u ++ a :: b :: v, L.IsTag x := fun x ↦ Layout.isTag_of_mem hd htags
      rw [alternating_append fun hin ↦ ha ((hinList a (hmem a (by simp))).mp hin)]
      exact ⟨hold.1.mono fun x hx ↦ (hinList x (hmem x (by simp [hx]))).mp,
        hold.2.mono fun x hx ↦ (hinList x (hmem x (by simp [hx]))).mp⟩
    · rw [hT.setTags_ne hc hd hdc]
      exact (hR.coalesced d hd).mono fun x hx ↦ (hinList x ⟨d, hd, hx⟩).mp

/-- What is asked of fewer tags. -/
theorem HeapRep.weaken (hR : HeapRep h L X) (hXY : ∀ x ∈ X, L.IsTag x → x ∈ Y) :
    HeapRep h L Y where
  toTiled := hR.toTiled
  toListed := hR.toListed
  status := hR.status
  magic := hR.magic
  fits x hx hno hxY := hR.fits x hx hno fun hxX ↦ hxY (hXY x hxX hx)
  coalesced := hR.coalesced

/-- Only the tags, and the fronts of the lists, are in the picture. -/
theorem HeapRep.congr (hR : HeapRep h L X) (hfree : h'.freePages = h.freePages)
    (htag : ∀ x, L.IsTag x → ∀ f, h'.tag x f = h.tag x f) : HeapRep h' L X := by
  have hinList : ∀ x, L.IsTag x → (h'.InList x ↔ h.InList x) := fun x hx ↦ by
    rw [State.InList, htag x hx, State.InList]
  refine { apart := hR.apart, run := hR.run, row := fun d hd ↦ ?_, split := fun d hd ↦ ?_,
           toListed := ?_, status := fun x hx ↦ ?_, magic := fun x hx ↦ ?_,
           fits := fun x hx hno hxX ↦ ?_, coalesced := fun d hd ↦ ?_ }
  · exact (hR.row d hd).congr fun x hx ↦ htag x ⟨d, hd, hx⟩ _
  · exact (hR.split d hd).congr (fun x hx ↦ htag x ⟨d, hd, hx⟩ _) fun x hx ↦ htag x ⟨d, hd, hx⟩ _
  · exact hR.toListed.congr rfl hfree (fun x hx hnot ↦ absurd hx hnot) (fun x hx _ ↦ hx)
      fun x hx f _ ↦ htag x hx f
  · rw [htag x hx, htag x hx]
    exact hR.status x hx
  · rw [htag x hx]
    exact hR.magic x hx
  · rw [htag x hx, htag x hx]
    exact hR.fits x hx (fun hin ↦ hno ((hinList x hx).mpr hin)) hxX
  · exact (hR.coalesced d hd).mono fun x hx ↦ (hinList x ⟨d, hd, hx⟩).mp

/-! ### Cutting an area in two -/

/-- What the fields are when a tag is set up behind what an area needs, but for the size. -/
def CutAt (h h' : State σ) (S : Set ℕ) (a n r : ℕ) : Prop :=
  ∀ x ∈ S, ∀ f, h'.tag x f =
    if x = n ∧ f = .index then noIndex
    else if x = a ∧ f = .realSize then 48 + h.tag a .size
    else if x = a ∧ f = .splitRight then n
    else if x = r ∧ f = .splitLeft then n
    else if x = n ∧ f = .magic then liballocMagic
    else if x = n ∧ f = .realSize then h.tag a .realSize - (48 + h.tag a .size)
    else if x = n ∧ (f = .next ∨ f = .prev) then 0
    else if x = n ∧ f = .splitLeft then a
    else if x = n ∧ f = .splitRight then r
    else h.tag x f

/-- Inside an area there is no other tag. -/
theorem Tiled.not_isTag (hT : Tiled h L) (ha : L.IsTag a) (hlo : a < n)
    (hhi : n < a + h.tag a .realSize) : ¬ L.IsTag n := by
  intro hn
  obtain ⟨-, hreal, -⟩ := hT.bounds hn
  rcases hT.areas ha hn hlo.ne with hle | hle <;> omega

theorem Tiled.separate_insert (hT : Tiled h L) (ha : L.IsTag a) (hlo : a + 48 ≤ n)
    (hhi : n + 48 ≤ a + h.tag a .realSize) : Separate (insert n L.tagSet) := by
  have hS := hT.separate
  obtain ⟨hpos, -, hbelow⟩ := hT.bounds ha
  have hnew : ∀ x ∈ L.tagSet, n + 48 ≤ x ∨ x + 48 ≤ n := by
    intro x hx
    obtain ⟨-, hreal, -⟩ := hT.bounds hx
    by_cases hax : a = x
    · subst hax
      exact .inr hlo
    · rcases hT.areas ha hx hax with hle | hle
      · exact .inl (by omega)
      · exact .inr (by omega)
  refine ⟨?_, ?_, ?_⟩
  · rintro x (rfl | hx)
    · omega
    · exact hS.pos x hx
  · rintro x (rfl | hx)
    · omega
    · exact hS.below x hx
  · rintro x (rfl | hx) y (rfl | hy)
    · exact .inl rfl
    · exact .inr (hnew y hy)
    · exact .inr (hnew x hx).symm
    · exact hS.apart x hx y hy

/-- **An area is cut in two**, and the tag of the rest is in no list yet. -/
theorem HeapRep.cut (hR : HeapRep h L ∅) (hc : c ∈ L.runs) (htags : L.tags c.1 = u ++ a :: v)
    (ha : ¬ h.InList a) (hn : a + 48 + h.tag a .size = n)
    (hroom : 48 + h.tag a .size + 48 ≤ h.tag a .realSize) (hr : h.tag a .splitRight = r)
    (hfree : h'.freePages = h.freePages) (hcut : CutAt h h' (insert n L.tagSet) a n r) :
    HeapRep h' (L.setTags c.1 (u ++ a :: n :: v)) {n} := by
  have hT := hR.toTiled
  have hmem : ∀ x ∈ u ++ a :: v, L.IsTag x := fun x ↦ Layout.isTag_of_mem hc htags
  have haT : L.IsTag a := hmem a (by simp)
  have hnT : ¬ L.IsTag n := hT.not_isTag haT (by omega) (by omega)
  have hpos := (hT.bounds haT).1
  have hrow := hT.row c hc
  have hsplit := hT.split c hc
  have hright : r = v.headD 0 := hr.symm.trans (hT.beside hc htags).2
  rw [htags] at hrow hsplit
  have hna : n ≠ a := by omega
  have hne : ∀ x, L.IsTag x → x ≠ n := fun x hx heq ↦ hnT (heq ▸ hx)
  have hrn : r ≠ n := by
    rw [hright]
    cases v with
    | nil => exact fun heq ↦ by simp at heq; omega
    | cons e v => exact hne e (hmem e (by simp))
  have hold : ∀ x, L.IsTag x → ∀ f, h'.tag x f =
      if x = a ∧ f = .realSize then 48 + h.tag a .size
      else if x = a ∧ f = .splitRight then n
      else if x = r ∧ f = .splitLeft then n
      else h.tag x f := fun x hx f ↦ by
    rw [hcut x (.inr hx)]
    simp [hne x hx]
  have hnew : ∀ f, h'.tag n f =
      if f = .index then noIndex
      else if f = .magic then liballocMagic
      else if f = .realSize then h.tag a .realSize - (48 + h.tag a .size)
      else if f = .next ∨ f = .prev then 0
      else if f = .splitLeft then a
      else if f = .splitRight then r
      else h.tag n f := fun f ↦ by
    rw [hcut n (.inl rfl)]
    simp [hna, hrn.symm]
  have hkeep : ∀ x, L.IsTag x → ∀ f, f ≠ .realSize → f ≠ .splitRight → f ≠ .splitLeft →
      h'.tag x f = h.tag x f := fun x hx f h1 h2 h3 ↦ by
    rw [hold x hx]
    simp [h1, h2, h3]
  have hinList : ∀ x, L.IsTag x → (h'.InList x ↔ h.InList x) := fun x hx ↦ by
    rw [State.InList, hkeep x hx .index (by simp) (by simp) (by simp), State.InList]
  have hnin : ¬ h'.InList n := by
    rw [State.InList, hnew]
    simp [noIndex]
  have hisTag : ∀ x, (L.setTags c.1 (u ++ a :: n :: v)).IsTag x ↔ L.IsTag x ∨ x = n := by
    intro x
    rw [hT.isTag_setTags hc, htags]
    have hsub := hmem x
    simp only [List.mem_append, List.mem_cons] at hsub ⊢
    tauto
  have hother : ∀ x ∈ u ++ v, L.IsTag x ∧ x ≠ a := fun x hx ↦ by
    obtain ⟨hx, hne⟩ := (mem_middle hsplit.nodup).mp hx
    exact ⟨hmem x hx, hne⟩
  have hTiled : Tiled h' (L.setTags c.1 (u ++ a :: n :: v)) := by
    have hsum : a + (48 + h.tag a .size) = n := by omega
    refine hT.setTags hc ?_ ?_ fun x hx hxc ↦ ?_
    · have hcutrow : InRow 48 (h'.tag · .realSize) c.1
          (u ++ a :: (a + (48 + h.tag a .size)) :: v) (c.1 + 4096 * c.2) :=
        hrow.cut (by omega) hroom
        (by rw [hold a haT]; simp) (by rw [hsum, hnew]; simp) fun x hx ↦ by
          rw [hold x (hother x hx).1]
          simp [(hother x hx).2]
      rwa [hsum] at hcutrow
    · have heq : u ++ a :: n :: v = (u ++ [a]) ++ n :: v := by rw [List.append_assoc]; rfl
      have heq' : u ++ a :: v = (u ++ [a]) ++ v := by rw [List.append_assoc]; rfl
      rw [heq]
      rw [heq'] at hsplit hmem
      have hra : r ≠ a := by
        rw [hright]
        exact (hsplit.headD_ne (by simp)).symm
      have hlast : (u ++ [a]).getLastD 0 = a := by
        rw [getLastD_append]
        rfl
      refine hsplit.insert hlast hright.symm (fun hx ↦ hnT (hmem n hx)) (by omega) (by simp [hnew])
        (by simp [hnew]) (fun x hx ↦ ⟨fun heq ↦ ?_, fun hno ↦ ?_⟩)
        fun x hx ↦ ⟨fun heq ↦ ?_, fun hno ↦ ?_⟩
      · rw [hold x (hmem x hx)]
        simp [heq]
      · rw [hold x (hmem x hx)]
        simp [hno]
      · rw [hold x (hmem x hx)]
        simp [heq]
      · rw [hold x (hmem x hx)]
        simp [hno]
    · have hxa : x ≠ a := by
        rintro rfl
        exact hxc (by simp [htags])
      have hxr : x ≠ r := by
        rw [hright]
        cases v with
        | nil => exact (hT.bounds hx).1.ne'
        | cons e v =>
          rintro rfl
          exact hxc (by simp [htags])
      refine ⟨?_, ?_, ?_⟩ <;>
      · rw [hold x hx]
        simp [hxa, hxr]
  refine { toTiled := hTiled, toListed := ?_, status := fun x hx ↦ ?_, magic := fun x hx ↦ ?_,
           fits := fun x hx hno hxX ↦ ?_, coalesced := fun d hd ↦ ?_ }
  · refine hR.toListed.congr rfl hfree (fun x hx hnot ↦ ?_) (fun x hx _ ↦ (hisTag x).mpr (.inl hx))
      fun x hx f hf ↦ ?_
    · obtain rfl := ((hisTag x).mp hx).resolve_left hnot
      exact ⟨hnin, by rw [hnew]; simp, by rw [hnew]; simp⟩
    · rcases hf with rfl | rfl | rfl <;> exact hkeep x hx _ (by simp) (by simp) (by simp)
  · rcases (hisTag x).mp hx with hx | rfl
    · rw [hkeep x hx _ (by simp) (by simp) (by simp)]
      by_cases hxa : x = a
      · rw [hxa]
        exact .inl (hR.index_of_not_inList haT ha)
      · rw [hold x hx .realSize]
        simpa [hxa] using hR.status x hx
    · left
      rw [hnew]
      simp
  · rcases (hisTag x).mp hx with hx | rfl
    · rw [hkeep x hx _ (by simp) (by simp) (by simp)]
      exact hR.magic x hx
    · rw [hnew]
      simp
  · have hx := ((hisTag x).mp hx).resolve_right hxX
    have hfits := hR.fits x hx (fun hin ↦ hno ((hinList x hx).mpr hin)) (Set.notMem_empty x)
    rw [hkeep x hx _ (by simp) (by simp) (by simp), hold x hx .realSize]
    by_cases hxa : x = a
    · simp [hxa]
    · simpa [hxa] using hfits
  · by_cases hdc : d = c
    · subst hdc
      rw [setTags_self]
      have hco := hR.coalesced d hd
      rw [htags, alternating_append ha] at hco
      rw [alternating_append fun hin ↦ ha ((hinList a haT).mp hin), alternating_cons hnin]
      exact ⟨hco.1.mono fun x hx ↦ (hinList x (hmem x (by simp [hx]))).mp,
        hco.2.mono fun x hx ↦ (hinList x (hmem x (by simp [hx]))).mp⟩
    · rw [hT.setTags_ne hc hd hdc]
      exact (hR.coalesced d hd).mono fun x hx ↦ (hinList x ⟨d, hd, hx⟩).mp

/-! ## Other tags in a list -/

theorem setList_self : (L.setList i l).lists i = l := Function.update_self ..

theorem setList_ne {j : ℕ} (hne : j ≠ i) : (L.setList i l).lists j = L.lists j :=
  Function.update_of_ne hne ..

/-- Nothing is in two lists. -/
theorem Listed.same_list {j : ℕ} (hL : Listed h L) (hi : a ∈ L.lists i) (hj : a ∈ L.lists j) :
    i = j :=
  ((hL.mem_iff i a).mp hi).2.2.symm.trans ((hL.mem_iff j a).mp hj).2.2

/-- What is needed to take a tag out of its list. -/
structure Removable (h : State σ) (L : Layout) (i a : ℕ) (u v : List ℕ) : Prop where
  isTag : L.IsTag a
  inList : h.InList a
  index : h.tag a .index = i
  prev : h.tag a .prev = u.getLastD 0
  next : h.tag a .next = v.headD 0
  prevTag : TagOrNull L.tagSet (h.tag a .prev)
  nextTag : TagOrNull L.tagSet (h.tag a .next)
  prev_ne : h.tag a .prev ≠ a

theorem Listed.removable (hL : Listed h L) (hlist : L.lists i = u ++ a :: v) :
    Removable h L i a u v := by
  have hmem : ∀ x ∈ u ++ a :: v, L.IsTag x ∧ h.InList x ∧ h.tag x .index = i := fun x hx ↦
    (hL.mem_iff i x).mp (hlist ▸ hx)
  have hlinked := hL.linked i
  rw [hlist] at hlinked
  obtain ⟨hprev, hnext⟩ := hlinked.at
  obtain ⟨ha, hin, hidx⟩ := hmem a (by simp)
  refine ⟨ha, hin, hidx, hprev, hnext, ?_, ?_, ?_⟩
  · rw [hprev]
    exact tagOrNull_getLastD fun x hx ↦ (hmem x (by simp [hx])).1
  · rw [hnext]
    exact tagOrNull_headD fun x hx ↦ (hmem x (by simp [hx])).1
  · rw [hprev]
    exact (hlinked.getLastD_ne List.mem_cons_self).symm

/-- The fields of a tag that is taken out of its list, and of the others. -/
theorem HeapRep.tag_remove (hR : HeapRep h L X) (hlist : L.lists i = u ++ a :: v) (hx : L.IsTag x) :
    (removeTag a h).tag x f =
      if x = a ∧ (f = .next ∨ f = .prev) then 0
      else if x = a ∧ f = .index then noIndex
      else if x = h.tag a .prev ∧ f = .next then h.tag a .next
      else if x = h.tag a .next ∧ f = .prev then h.tag a .prev
      else h.tag x f := by
  have hrem := hR.toListed.removable hlist
  exact tag_removeTag hR.separate hrem.isTag hx hrem.prevTag hrem.nextTag hrem.prev_ne

theorem inList_removeTag (hR : HeapRep h L X) (hlist : L.lists i = u ++ a :: v) (hx : L.IsTag x) :
    (removeTag a h).InList x ↔ h.InList x ∧ x ≠ a := by
  rw [State.InList, hR.tag_remove hlist hx, State.InList]
  by_cases hxa : x = a
  · simp [hxa, noIndex]
  · simp [hxa]

theorem Listed.remove (hR : HeapRep h L X) (hlist : L.lists i = u ++ a :: v) :
    Listed (removeTag a h) (L.setList i (u ++ v)) := by
  have hL := hR.toListed
  have hrem := hL.removable hlist
  have hlinked := hL.linked i
  rw [hlist] at hlinked
  have hmem : ∀ j, ∀ x ∈ L.lists j, L.IsTag x := fun j x hx ↦ ((hL.mem_iff j x).mp hx).1
  have hsub : ∀ x ∈ u ++ v, x ∈ L.lists i := fun x hx ↦ by
    rw [hlist]
    exact ((mem_middle hlinked.nodup).mp hx).1
  have hne : ∀ x ∈ u ++ v, x ≠ a := fun x hx ↦ ((mem_middle hlinked.nodup).mp hx).2
  -- what is linked to the tag is in the same list
  have hprev : ∀ x, x = h.tag a .prev → x ≠ 0 → x ∈ L.lists i := by
    intro x hx h0
    rw [hx, hrem.prev] at h0 ⊢
    exact hsub _ (tagOrNull_getLastD (S := {x | x ∈ u ++ v}) (fun y hy ↦ by simp [hy]) h0)
  have hnext : ∀ x, x = h.tag a .next → x ≠ 0 → x ∈ L.lists i := by
    intro x hx h0
    rw [hx, hrem.next] at h0 ⊢
    exact hsub _ (tagOrNull_headD (S := {x | x ∈ u ++ v}) (fun y hy ↦ by simp [hy]) h0)
  refine ⟨fun j ↦ ?_, fun j ↦ ?_, fun j x ↦ ?_, fun x hx hno ↦ ?_⟩
  · have hfront : h.freePages i = (u ++ a :: v).headD 0 := by rw [hL.front, hlist]
    rw [freePages_removeTag, hrem.index, hfront]
    by_cases hj : j = i
    · rw [hj, setList_self]
      cases u with
      | nil => simp [hrem.next]
      | cons e u =>
        have hea : e ≠ a := hne e (by simp)
        simp [hea, hfront]
    · rw [setList_ne hj, ← hL.front]
      split_ifs
      · rw [Function.update_of_ne hj]
      · rfl
  · by_cases hj : j = i
    · rw [hj, setList_self]
      refine hlinked.remove (fun x hx ↦ ⟨fun heq ↦ ?_, fun hno ↦ ?_⟩) fun x hx ↦
        ⟨fun heq ↦ ?_, fun hno ↦ ?_⟩
      · have hxa := hne x hx
        rw [hR.tag_remove hlist (hmem i x (hsub x hx))]
        rw [heq] at hxa ⊢
        simp [hxa]
      · rw [hR.tag_remove hlist (hmem i x (hsub x hx))]
        simp [hne x hx, hno]
      · have hxa := hne x hx
        rw [hR.tag_remove hlist (hmem i x (hsub x hx))]
        rw [heq] at hxa ⊢
        simp [hxa]
      · rw [hR.tag_remove hlist (hmem i x (hsub x hx))]
        simp [hne x hx, hno]
    · rw [setList_ne hj]
      have hother : ∀ x ∈ L.lists j, x ≠ a ∧ x ≠ h.tag a .prev ∧ x ≠ h.tag a .next := by
        intro x hx
        have hx0 := (hL.linked j).ne_zero x hx
        refine ⟨?_, fun heq ↦ ?_, fun heq ↦ ?_⟩
        · rintro rfl
          exact hj (hL.same_list hx (hlist ▸ (by simp)))
        · exact hj (hL.same_list hx (hprev x heq hx0))
        · exact hj (hL.same_list hx (hnext x heq hx0))
      refine (hL.linked j).congr (fun x hx ↦ ?_) fun x hx ↦ ?_ <;>
      · rw [hR.tag_remove hlist (hmem j x hx)]
        simp [hother x hx]
  · by_cases hj : j = i
    · rw [hj, setList_self, mem_middle hlinked.nodup, ← hlist, hL.mem_iff]
      constructor
      · rintro ⟨⟨hx, hin, hidx⟩, hxa⟩
        refine ⟨hx, (inList_removeTag hR hlist hx).mpr ⟨hin, hxa⟩, ?_⟩
        rw [hR.tag_remove hlist hx]
        simp [hxa, hidx]
      · rintro ⟨hx, hin, hidx⟩
        obtain ⟨hin, hxa⟩ := (inList_removeTag hR hlist hx).mp hin
        rw [hR.tag_remove hlist hx] at hidx
        exact ⟨⟨hx, hin, by simpa [hxa] using hidx⟩, hxa⟩
    · rw [setList_ne hj, hL.mem_iff]
      constructor
      · rintro ⟨hx, hin, hidx⟩
        have hxa : x ≠ a := by
          rintro rfl
          exact hj (hidx.symm.trans hrem.index)
        refine ⟨hx, (inList_removeTag hR hlist hx).mpr ⟨hin, hxa⟩, ?_⟩
        rw [hR.tag_remove hlist hx]
        simp [hxa, hidx]
      · rintro ⟨hx, hin, hidx⟩
        obtain ⟨hin, hxa⟩ := (inList_removeTag hR hlist hx).mp hin
        rw [hR.tag_remove hlist hx] at hidx
        exact ⟨hx, hin, by simpa [hxa] using hidx⟩
  · by_cases hxa : x = a
    · constructor <;>
      · rw [hR.tag_remove hlist hx]
        simp [hxa]
    · have hnot : ¬ h.InList x := fun hin ↦ hno ((inList_removeTag hR hlist hx).mpr ⟨hin, hxa⟩)
      have hx0 := (hR.bounds hx).1.ne'
      have hnp : x ≠ h.tag a .prev := fun heq ↦
        hnot ((hL.mem_iff i x).mp (hprev x heq hx0)).2.1
      have hnn : x ≠ h.tag a .next := fun heq ↦
        hnot ((hL.mem_iff i x).mp (hnext x heq hx0)).2.1
      obtain ⟨h1, h2⟩ := hL.unlisted x hx hnot
      constructor
      · rw [hR.tag_remove hlist hx]
        simp [hxa, hnp, h1]
      · rw [hR.tag_remove hlist hx]
        simp [hxa, hnn, h2]

/-- **A tag is taken out of its list.** -/
theorem HeapRep.remove (hR : HeapRep h L X) (hlist : L.lists i = u ++ a :: v) :
    HeapRep (removeTag a h) (L.setList i (u ++ v)) (insert a X) := by
  have hkeep : ∀ x, L.IsTag x → ∀ f, f ≠ .next → f ≠ .prev → f ≠ .index →
      (removeTag a h).tag x f = h.tag x f := fun x hx f h1 h2 h3 ↦ by
    rw [hR.tag_remove hlist hx]
    simp [h1, h2, h3]
  have hrun : ∀ d ∈ L.runs, ∀ x ∈ L.tags d.1, L.IsTag x := fun d hd x hx ↦ ⟨d, hd, hx⟩
  refine { apart := hR.apart, run := hR.run, row := fun d hd ↦ ?_, split := fun d hd ↦ ?_,
           toListed := Listed.remove hR hlist, status := fun x hx ↦ ?_, magic := fun x hx ↦ ?_,
           fits := fun x hx hno hxX ↦ ?_, coalesced := fun d hd ↦ ?_ }
  · exact (hR.row d hd).congr fun x hx ↦ hkeep x (hrun d hd x hx) _ (by simp) (by simp) (by simp)
  · exact (hR.split d hd).congr
      (fun x hx ↦ hkeep x (hrun d hd x hx) _ (by simp) (by simp) (by simp))
      fun x hx ↦ hkeep x (hrun d hd x hx) _ (by simp) (by simp) (by simp)
  · by_cases hxa : x = a
    · left
      rw [hR.tag_remove hlist hx]
      simp [hxa]
    · rw [hkeep x hx .realSize (by simp) (by simp) (by simp), hR.tag_remove hlist hx]
      simpa [hxa] using hR.status x hx
  · rw [hkeep x hx _ (by simp) (by simp) (by simp)]
    exact hR.magic x hx
  · have hxa : x ≠ a := fun heq ↦ hxX (.inl heq)
    rw [hkeep x hx _ (by simp) (by simp) (by simp), hkeep x hx _ (by simp) (by simp) (by simp)]
    exact hR.fits x hx (fun hin ↦ hno ((inList_removeTag hR hlist hx).mpr ⟨hin, hxa⟩))
      fun hX ↦ hxX (.inr hX)
  · exact (hR.coalesced d hd).mono fun x hx hin ↦
      ((inList_removeTag hR hlist (hrun d hd x hx)).mp hin).1

/-- What is needed to put a tag in a list. -/
structure Insertable (h : State σ) (L : Layout) (index : ℤ) (i a : ℕ) : Prop where
  isTag : L.IsTag a
  not_inList : ¬ h.InList a
  index_eq : (if index < 0 then listIndex (room (h.tag a .realSize)) else index.toNat) = i
  listIndex_eq : i = listIndex (room (h.tag a .realSize))

variable {index : ℤ}

theorem Insertable.lt (hI : Insertable h L index i a) : i < 32 :=
  hI.listIndex_eq ▸ listIndex_lt _

theorem Listed.frontTag (hL : Listed h L) (i : ℕ) : TagOrNull L.tagSet (h.freePages i) := by
  rw [hL.front]
  exact tagOrNull_headD fun x hx ↦ ((hL.mem_iff i x).mp hx).1

/-- The fields of a tag that is put in a list, and of the others. -/
theorem HeapRep.tag_insert (hR : HeapRep h L X) (hI : Insertable h L index i a) (hx : L.IsTag x) :
    (insertTag a index h).tag x f =
      if x = a ∧ f = .index then i
      else if x = a ∧ f = .next then h.freePages i
      else if x = h.freePages i ∧ f = .prev then a
      else h.tag x f := by
  have hlt := hI.lt
  rw [tag_insertTag hR.separate hI.isTag hx hI.index_eq (by omega) (hR.frontTag i)]
  by_cases h0 : h.freePages i = 0
  · -- a tag that is in no list has null behind it
    obtain ⟨hnext, -⟩ := hR.unlisted a hI.isTag hI.not_inList
    by_cases hxa : x = a ∧ f = .next
    · simp [hxa.1, hxa.2, h0, hnext]
    · rw [if_neg (c := x = a ∧ f = .next ∧ _) fun hand ↦ hxa ⟨hand.1, hand.2.1⟩,
        if_neg (c := x = a ∧ f = .next) hxa]
  · simp only [h0, ne_eq, not_false_eq_true, and_true]

theorem inList_insertTag (hR : HeapRep h L X) (hI : Insertable h L index i a) (hx : L.IsTag x) :
    (insertTag a index h).InList x ↔ h.InList x ∨ x = a := by
  have hlt := hI.lt
  rw [State.InList, hR.tag_insert hI hx, State.InList]
  by_cases hxa : x = a
  · simp only [hxa, true_and, if_true, or_true, iff_true]
    omega
  · simp [hxa]

theorem Listed.insert (hR : HeapRep h L X) (hI : Insertable h L index i a) :
    Listed (insertTag a index h) (L.setList i (a :: L.lists i)) := by
  have hL := hR.toListed
  have hmem : ∀ j, ∀ x ∈ L.lists j, L.IsTag x := fun j x hx ↦ ((hL.mem_iff j x).mp hx).1
  have hne : ∀ j, ∀ x ∈ L.lists j, x ≠ a := fun j x hx heq ↦
    hI.not_inList (heq ▸ ((hL.mem_iff j x).mp hx).2.1)
  have hfrontmem : ∀ x, x = h.freePages i → x ≠ 0 → x ∈ L.lists i := by
    intro x hx h0
    rw [hx, hL.front] at h0 ⊢
    exact tagOrNull_headD (S := {x | x ∈ L.lists i}) (fun y hy ↦ hy) h0
  have ha0 := (hR.bounds hI.isTag).1.ne'
  have hfront0 : h.freePages i ≠ a := fun heq ↦ hne i _ (hfrontmem _ rfl (heq ▸ ha0)) heq
  refine ⟨fun j ↦ ?_, fun j ↦ ?_, fun j x ↦ ?_, fun x hx hno ↦ ?_⟩
  · rw [freePages_insertTag hI.index_eq]
    by_cases hj : j = i
    · rw [hj, setList_self, Function.update_self]
      rfl
    · rw [setList_ne hj, Function.update_of_ne hj, hL.front]
  · by_cases hj : j = i
    · rw [hj, setList_self]
      have hnext : (insertTag a index h).tag a .next = (L.lists i).headD 0 := by
        rw [hR.tag_insert hI hI.isTag, ← hL.front]
        simp
      have hprev : (insertTag a index h).tag a .prev = 0 := by
        rw [hR.tag_insert hI hI.isTag]
        simp [hfront0.symm, (hL.unlisted a hI.isTag hI.not_inList).2]
      refine LinkedList.insert (u := []) (hL.linked i) rfl rfl (fun ha ↦ hne i a ha rfl) ha0 hprev
        hnext (fun x hx ↦ ⟨fun heq ↦ ?_, fun hno ↦ ?_⟩) fun x hx ↦ ⟨fun heq ↦ ?_, fun _ ↦ ?_⟩
      · rw [← hL.front] at heq
        rw [hR.tag_insert hI (hmem i x hx)]
        simp [heq]
      · rw [← hL.front] at hno
        rw [hR.tag_insert hI (hmem i x hx)]
        simp [hno]
      · exact absurd heq ((hL.linked i).ne_zero x hx)
      · rw [hR.tag_insert hI (hmem i x hx)]
        simp [hne i x hx]
    · rw [setList_ne hj]
      have hother : ∀ x ∈ L.lists j, x ≠ h.freePages i := fun x hx heq ↦
        hj (hL.same_list hx (hfrontmem x heq ((hL.linked j).ne_zero x hx)))
      refine (hL.linked j).congr (fun x hx ↦ ?_) fun x hx ↦ ?_ <;>
      · rw [hR.tag_insert hI (hmem j x hx)]
        simp [hne j x hx, hother x hx]
  · show x ∈ (L.setList i (a :: L.lists i)).lists j ↔ L.IsTag x ∧ _
    by_cases hj : j = i
    · rw [hj, setList_self, List.mem_cons, hL.mem_iff]
      constructor
      · rintro (rfl | ⟨hx, hin, hidx⟩)
        · refine ⟨hI.isTag, (inList_insertTag hR hI hI.isTag).mpr (.inr rfl), ?_⟩
          rw [hR.tag_insert hI hI.isTag, if_pos ⟨rfl, rfl⟩]
        · have hxa : x ≠ a := fun heq ↦ hI.not_inList (heq ▸ hin)
          refine ⟨hx, (inList_insertTag hR hI hx).mpr (.inl hin), ?_⟩
          rw [hR.tag_insert hI hx]
          simp [hxa, hidx]
      · rintro ⟨hx, hin, hidx⟩
        by_cases hxa : x = a
        · exact .inl hxa
        · refine .inr ⟨hx, ((inList_insertTag hR hI hx).mp hin).resolve_right hxa, ?_⟩
          rw [hR.tag_insert hI hx] at hidx
          simpa [hxa] using hidx
    · rw [setList_ne hj, hL.mem_iff]
      constructor
      · rintro ⟨hx, hin, hidx⟩
        have hxa : x ≠ a := fun heq ↦ hI.not_inList (heq ▸ hin)
        refine ⟨hx, (inList_insertTag hR hI hx).mpr (.inl hin), ?_⟩
        rw [hR.tag_insert hI hx]
        simp [hxa, hidx]
      · rintro ⟨hx, hin, hidx⟩
        rw [hR.tag_insert hI hx] at hidx
        have hxa : x ≠ a := by
          rintro rfl
          rw [if_pos ⟨rfl, rfl⟩] at hidx
          exact hj hidx.symm
        refine ⟨hx, ((inList_insertTag hR hI hx).mp hin).resolve_right hxa, ?_⟩
        simpa [hxa] using hidx
  · have hxa : x ≠ a := fun heq ↦ hno ((inList_insertTag hR hI hx).mpr (.inr heq))
    have hnot : ¬ h.InList x := fun hin ↦ hno ((inList_insertTag hR hI hx).mpr (.inl hin))
    have hxf : x ≠ h.freePages i := fun heq ↦
      hnot ((hL.mem_iff i x).mp (hfrontmem x heq (hR.bounds hx).1.ne')).2.1
    obtain ⟨h1, h2⟩ := hL.unlisted x hx hnot
    constructor
    · rw [hR.tag_insert hI hx]
      simp [hxa, h1]
    · rw [hR.tag_insert hI hx]
      simp [hxf, h2]

/-- **A tag is put in the list for its size.** -/
theorem HeapRep.insert (hR : HeapRep h L X) (hX : ∀ x ∈ X, x = a) (hI : Insertable h L index i a)
    (hc : c ∈ L.runs) (htags : L.tags c.1 = u ++ a :: v) (hu : ∀ x ∈ u.getLast?, ¬ h.InList x)
    (hv : ∀ x ∈ v.head?, ¬ h.InList x) :
    HeapRep (insertTag a index h) (L.setList i (a :: L.lists i)) ∅ := by
  have hkeep : ∀ x, L.IsTag x → ∀ f, f ≠ .next → f ≠ .prev → f ≠ .index →
      (insertTag a index h).tag x f = h.tag x f := fun x hx f h1 h2 h3 ↦ by
    rw [hR.tag_insert hI hx]
    simp [h1, h2, h3]
  have hrun : ∀ d ∈ L.runs, ∀ x ∈ L.tags d.1, L.IsTag x := fun d hd x hx ↦ ⟨d, hd, hx⟩
  refine { apart := hR.apart, run := hR.run, row := fun d hd ↦ ?_, split := fun d hd ↦ ?_,
           toListed := Listed.insert hR hI, status := fun x hx ↦ ?_, magic := fun x hx ↦ ?_,
           fits := fun x hx hno _ ↦ ?_, coalesced := fun d hd ↦ ?_ }
  · exact (hR.row d hd).congr fun x hx ↦ hkeep x (hrun d hd x hx) _ (by simp) (by simp) (by simp)
  · exact (hR.split d hd).congr
      (fun x hx ↦ hkeep x (hrun d hd x hx) _ (by simp) (by simp) (by simp))
      fun x hx ↦ hkeep x (hrun d hd x hx) _ (by simp) (by simp) (by simp)
  · rw [hkeep x hx .realSize (by simp) (by simp) (by simp), hR.tag_insert hI hx]
    by_cases hxa : x = a
    · simp [hxa, ← hI.listIndex_eq]
    · simpa [hxa] using hR.status x hx
  · rw [hkeep x hx _ (by simp) (by simp) (by simp)]
    exact hR.magic x hx
  · have hxa : x ≠ a := fun heq ↦ hno ((inList_insertTag hR hI hx).mpr (.inr heq))
    rw [hkeep x hx _ (by simp) (by simp) (by simp), hkeep x hx _ (by simp) (by simp) (by simp)]
    exact hR.fits x hx (fun hin ↦ hno ((inList_insertTag hR hI hx).mpr (.inl hin)))
      fun hxX ↦ hxa (hX x hxX)
  · have hold := hR.coalesced d hd
    have hin : ∀ x ∈ L.tags d.1, x ≠ a → (insertTag a index h).InList x → h.InList x :=
      fun x hx hxa hin ↦ ((inList_insertTag hR hI (hrun d hd x hx)).mp hin).resolve_right hxa
    by_cases hdc : d = c
    · subst hdc
      have hnodup := (hR.split d hd).nodup
      rw [htags] at hold hnodup hin
      show Alternating _ (L.tags d.1)
      rw [htags]
      obtain ⟨hau, hold⟩ := (alternating_append hI.not_inList).mp hold
      have hne : ∀ x ∈ u ++ v, x ≠ a := fun x hx ↦ ((mem_middle hnodup).mp hx).2
      have hmemu : ∀ x ∈ u, x ∈ u ++ a :: v := fun x hx ↦ List.mem_append_left _ hx
      have hmemv : ∀ x ∈ v, x ∈ u ++ a :: v := fun x hx ↦ by simp [hx]
      rw [Alternating, List.isChain_append, List.isChain_cons]
      refine ⟨hau.mono fun x hx ↦ hin x (hmemu x hx) (hne x (by simp [hx])),
        ⟨fun y hy hboth ↦ hv y hy ?_,
          hold.mono fun x hx ↦ hin x (hmemv x hx) (hne x (by simp [hx]))⟩,
        fun x hx y _ hboth ↦ hu x hx ?_⟩
      · have hyv := List.mem_of_mem_head? hy
        exact hin y (hmemv y hyv) (hne y (by simp [hyv])) hboth.2
      · have hxu := List.mem_of_mem_getLast? hx
        exact hin x (hmemu x hxu) (hne x (by simp [hxu])) hboth.1
    · refine hold.mono fun x hx ↦ hin x hx ?_
      rintro rfl
      exact hdc (hR.same_run hd hc hx (htags.symm ▸ (by simp)))

/-! ## Runs that come and go -/

/-- Another run, with one tag. -/
def Layout.addRun (L : Layout) (a n : ℕ) : Layout :=
  { L with runs := (a, n) :: L.runs, tags := Function.update L.tags a [a] }

/-- A run less. -/
def Layout.dropRun (L : Layout) (c : ℕ × ℕ) : Layout := { L with runs := L.runs.erase c }

theorem Layout.isTag_addRun (L : Layout) (hne : ∀ d ∈ L.runs, d.1 ≠ a) :
    (L.addRun a n).IsTag x ↔ x = a ∨ L.IsTag x := by
  have hself : (L.addRun a n).tags a = [a] := Function.update_self ..
  have hrest : ∀ d ∈ L.runs, (L.addRun a n).tags d.1 = L.tags d.1 := fun d hd ↦
    Function.update_of_ne (hne d hd) ..
  constructor
  · rintro ⟨d, hd, hx⟩
    rcases List.mem_cons.mp hd with rfl | hd
    · rw [hself] at hx
      exact .inl (List.mem_singleton.mp hx)
    · exact .inr ⟨d, hd, hrest d hd ▸ hx⟩
  · rintro (rfl | ⟨d, hd, hx⟩)
    · exact ⟨(x, n), List.mem_cons_self, hself.symm ▸ List.mem_singleton_self x⟩
    · exact ⟨d, List.mem_cons_of_mem _ hd, (hrest d hd).symm ▸ hx⟩

/-- **A run is added** that does not overlap the others. -/
theorem HeapRep.addRun (hR : HeapRep h L ∅)
    (hrun : 0 < a ∧ 16 ≤ n ∧ 4096 * n < 2 ^ 32 ∧ a + 4096 * n ≤ 2 ^ 64)
    (hapart : ∀ d ∈ L.runs, a + 4096 * n ≤ d.1 ∨ d.1 + 4096 * d.2 ≤ a)
    (hfree : h'.freePages = h.freePages) (hold : ∀ x, L.IsTag x → ∀ f, h'.tag x f = h.tag x f)
    (hmagic : h'.tag a .magic = liballocMagic) (hreal : h'.tag a .realSize = 4096 * n)
    (hindex : h'.tag a .index = noIndex)
    (hnull : ∀ f, f = .splitLeft ∨ f = .splitRight ∨ f = .next ∨ f = .prev → h'.tag a f = 0) :
    HeapRep h' (L.addRun a n) {a} := by
  have hdne : ∀ d ∈ L.runs, d.1 ≠ a := by
    intro d hd heq
    obtain ⟨-, hpages, -⟩ := hR.run d hd
    rcases hapart d hd with hle | hle <;> omega
  have hself : (L.addRun a n).tags a = [a] := Function.update_self ..
  have hrest : ∀ d ∈ L.runs, (L.addRun a n).tags d.1 = L.tags d.1 := fun d hd ↦
    Function.update_of_ne (hdne d hd) ..
  have hisTag : ∀ x, (L.addRun a n).IsTag x ↔ x = a ∨ L.IsTag x := fun _ ↦ L.isTag_addRun hdne
  have hnin : ¬ h'.InList a := by simp [State.InList, hindex, noIndex]
  have hinList : ∀ x, L.IsTag x → (h'.InList x ↔ h.InList x) := fun x hx ↦ by
    rw [State.InList, hold x hx, State.InList]
  refine { apart := ?_, run := ?_, row := fun d hd ↦ ?_, split := fun d hd ↦ ?_,
           toListed := ?_, status := fun x hx ↦ ?_, magic := fun x hx ↦ ?_,
           fits := fun x hx hno hxX ↦ ?_, coalesced := fun d hd ↦ ?_ }
  · exact List.pairwise_cons.mpr ⟨hapart, hR.apart⟩
  · exact List.forall_mem_cons.mpr ⟨hrun, hR.run⟩
  · rcases List.mem_cons.mp hd with rfl | hd
    · rw [hself]
      exact ⟨rfl, by simp only [hreal]; omega, by simp only [hreal]; rfl⟩
    · rw [hrest d hd]
      exact (hR.row d hd).congr fun x hx ↦ hold x ⟨d, hd, hx⟩ _
  · rcases List.mem_cons.mp hd with rfl | hd
    · rw [hself]
      exact .singleton (hnull _ (by simp)) (hnull _ (by simp)) (by omega)
    · rw [hrest d hd]
      exact (hR.split d hd).congr (fun x hx ↦ hold x ⟨d, hd, hx⟩ _) fun x hx ↦ hold x ⟨d, hd, hx⟩ _
  · refine hR.toListed.congr rfl hfree (fun x hx hnot ↦ ?_) (fun x hx _ ↦ (hisTag x).mpr (.inr hx))
      fun x hx f _ ↦ hold x hx f
    obtain rfl := ((hisTag x).mp hx).resolve_right hnot
    exact ⟨hnin, hnull _ (by simp), hnull _ (by simp)⟩
  · rcases (hisTag x).mp hx with rfl | hx
    · exact .inl hindex
    · rw [hold x hx, hold x hx]
      exact hR.status x hx
  · rcases (hisTag x).mp hx with rfl | hx
    · exact hmagic
    · rw [hold x hx]
      exact hR.magic x hx
  · have hx := ((hisTag x).mp hx).resolve_left hxX
    rw [hold x hx, hold x hx]
    exact hR.fits x hx (fun hin ↦ hno ((hinList x hx).mpr hin)) (Set.notMem_empty x)
  · rcases List.mem_cons.mp hd with rfl | hd
    · rw [hself]
      exact List.isChain_singleton a
    · rw [hrest d hd]
      exact (hR.coalesced d hd).mono fun x hx ↦ (hinList x ⟨d, hd, hx⟩).mp

theorem Tiled.nodup_runs (hT : Tiled h L) : L.runs.Nodup := by
  refine List.Pairwise.imp_of_mem (fun {c d} hc _ hapart heq ↦ ?_) hT.apart
  subst heq
  obtain ⟨-, hpages, -⟩ := hT.run c hc
  omega

theorem Tiled.isTag_dropRun (hT : Tiled h L) (hc : c ∈ L.runs) (htags : L.tags c.1 = [a]) :
    (L.dropRun c).IsTag x ↔ L.IsTag x ∧ x ≠ a := by
  have hruns : ∀ d, d ∈ L.runs.erase c ↔ d ≠ c ∧ d ∈ L.runs := fun d ↦
    hT.nodup_runs.mem_erase_iff
  constructor
  · rintro ⟨d, hd, hx⟩
    obtain ⟨hdc, hd⟩ := (hruns d).mp hd
    refine ⟨⟨d, hd, hx⟩, ?_⟩
    rintro rfl
    exact hdc (hT.same_run hd hc hx (htags.symm ▸ List.mem_singleton_self x))
  · rintro ⟨⟨d, hd, hx⟩, hxa⟩
    refine ⟨d, (hruns d).mpr ⟨?_, hd⟩, hx⟩
    rintro rfl
    exact hxa (by simpa [htags] using hx)

/-- **A run with one tag is given back**, if the tag is in no list. -/
theorem HeapRep.dropRun (hR : HeapRep h L {a}) (hc : c ∈ L.runs) (htags : L.tags c.1 = [a])
    (ha : ¬ h.InList a) (hfree : h'.freePages = h.freePages) (hmem : h'.mem = h.mem) :
    HeapRep h' (L.dropRun c) ∅ := by
  have hruns : ∀ d, d ∈ L.runs.erase c ↔ d ≠ c ∧ d ∈ L.runs := fun d ↦
    hR.nodup_runs.mem_erase_iff
  have hisTag : ∀ x, (L.dropRun c).IsTag x ↔ L.IsTag x ∧ x ≠ a := fun _ ↦
    hR.toTiled.isTag_dropRun hc htags
  have htag : ∀ x f, h'.tag x f = h.tag x f := fun x f ↦
    tag_congr fun y _ _ ↦ congrFun hmem y
  have hinList : ∀ x, h'.InList x ↔ h.InList x := fun x ↦ by
    rw [State.InList, htag, State.InList]
  refine { apart := hR.apart.sublist List.erase_sublist, run := fun d hd ↦ ?_,
           row := fun d hd ↦ ?_, split := fun d hd ↦ ?_, toListed := ?_,
           status := fun x hx ↦ ?_, magic := fun x hx ↦ ?_, fits := fun x hx hno _ ↦ ?_,
           coalesced := fun d hd ↦ ?_ }
  · exact hR.run d ((hruns d).mp hd).2
  · exact (hR.row d ((hruns d).mp hd).2).congr fun x _ ↦ htag x _
  · exact (hR.split d ((hruns d).mp hd).2).congr (fun x _ ↦ htag x _) fun x _ ↦ htag x _
  · refine hR.toListed.congr rfl hfree (fun x hx hnot ↦ absurd ((hisTag x).mp hx).1 hnot)
      (fun x hx hin ↦ (hisTag x).mpr ⟨hx, ?_⟩) fun x _ f _ ↦ htag x f
    rintro rfl
    exact ha hin
  · rw [htag, htag]
    exact hR.status x ((hisTag x).mp hx).1
  · rw [htag]
    exact hR.magic x ((hisTag x).mp hx).1
  · obtain ⟨hx, hxa⟩ := (hisTag x).mp hx
    rw [htag, htag]
    exact hR.fits x hx (fun hin ↦ hno ((hinList x).mpr hin)) hxa
  · exact (hR.coalesced d ((hruns d).mp hd).2).mono fun x _ ↦ (hinList x).mp

/-- **The size that is asked for** is written in a tag that has room for it. -/
theorem HeapRep.setSize (hR : HeapRep h L X) (hX : ∀ x ∈ X, x = a) (ha : L.IsTag a)
    (hroom : 48 + n ≤ h.tag a .realSize) : HeapRep (h.setTag a .size n) L ∅ := by
  have hreal : h.tag a .realSize < 2 ^ 32 := tag_lt h a .realSize
  have htag : ∀ x, L.IsTag x → ∀ f, (h.setTag a .size n).tag x f =
      if x = a ∧ f = .size then n else h.tag x f := fun x hx f ↦
    tag_setTag hR.separate ha hx (f := .size) (by simp only [boundaryTag]; omega)
  have hkeep : ∀ x, L.IsTag x → ∀ f, f ≠ .size → (h.setTag a .size n).tag x f = h.tag x f :=
    fun x hx f hf ↦ by
      rw [htag x hx]
      simp [hf]
  have hinList : ∀ x, L.IsTag x → ((h.setTag a .size n).InList x ↔ h.InList x) := fun x hx ↦ by
    rw [State.InList, hkeep x hx _ (by simp), State.InList]
  refine { apart := hR.apart, run := hR.run, row := fun d hd ↦ ?_, split := fun d hd ↦ ?_,
           toListed := ?_, status := fun x hx ↦ ?_, magic := fun x hx ↦ ?_,
           fits := fun x hx hno _ ↦ ?_, coalesced := fun d hd ↦ ?_ }
  · exact (hR.row d hd).congr fun x hx ↦ hkeep x ⟨d, hd, hx⟩ _ (by simp)
  · exact (hR.split d hd).congr (fun x hx ↦ hkeep x ⟨d, hd, hx⟩ _ (by simp))
      fun x hx ↦ hkeep x ⟨d, hd, hx⟩ _ (by simp)
  · refine hR.toListed.congr rfl rfl (fun x hx hnot ↦ absurd hx hnot) (fun x hx _ ↦ hx)
      fun x hx f hf ↦ ?_
    rcases hf with rfl | rfl | rfl <;> exact hkeep x hx _ (by simp)
  · rw [hkeep x hx _ (by simp), hkeep x hx _ (by simp)]
    exact hR.status x hx
  · rw [hkeep x hx _ (by simp)]
    exact hR.magic x hx
  · rw [htag x hx, hkeep x hx _ (by simp)]
    by_cases hxa : x = a
    · simpa [hxa] using hroom
    · simpa [hxa] using hR.fits x hx (fun hin ↦ hno ((hinList x hx).mpr hin)) fun hxX ↦
        hxa (hX x hxX)
  · exact (hR.coalesced d hd).mono fun x hx ↦ (hinList x ⟨d, hd, hx⟩).mp

/-! ## Counting whole runs -/

theorem wholeCount_congr {L' : Layout} (hlists : L'.lists i = L.lists i)
    (hwhole : ∀ x ∈ L.lists i, (h'.Whole x ↔ h.Whole x)) :
    wholeCount h' L' i = wholeCount h L i := by
  rw [wholeCount, hlists, wholeCount]
  exact List.countP_congr fun x hx ↦ by simpa using hwhole x hx

theorem wholeCount_remove (hR : HeapRep h L X) (hlist : L.lists i = u ++ a :: v) (j : ℕ) :
    wholeCount (removeTag a h) (L.setList i (u ++ v)) j + (if j = i ∧ h.Whole a then 1 else 0) =
      wholeCount h L j := by
  have hwhole : ∀ x, L.IsTag x → ((removeTag a h).Whole x ↔ h.Whole x) := fun x hx ↦ by
    rw [State.Whole, hR.tag_remove hlist hx, hR.tag_remove hlist hx]
    simp [State.Whole]
  by_cases hj : j = i
  · subst hj
    have hmem : ∀ x ∈ u ++ v, L.IsTag x := fun x hx ↦
      ((hR.mem_iff j x).mp (hlist ▸ by simp only [List.mem_append, List.mem_cons] at hx ⊢; tauto)).1
    have hsame : (u ++ v).countP (fun x ↦ (removeTag a h).Whole x) =
        (u ++ v).countP fun x ↦ h.Whole x :=
      List.countP_congr fun x hx ↦ by simpa using hwhole x (hmem x hx)
    rw [wholeCount, setList_self, hsame, wholeCount, hlist, List.countP_append, List.countP_append,
      List.countP_cons]
    by_cases ha : h.Whole a
    · simp [ha]
      omega
    · simp [ha]
  · rw [if_neg fun hand ↦ hj hand.1, Nat.add_zero]
    exact wholeCount_congr (setList_ne hj) fun x hx ↦ hwhole x ((hR.mem_iff j x).mp hx).1

theorem wholeCount_insert (hR : HeapRep h L X) (hI : Insertable h L index i a) (j : ℕ) :
    wholeCount (insertTag a index h) (L.setList i (a :: L.lists i)) j =
      wholeCount h L j + if j = i ∧ h.Whole a then 1 else 0 := by
  have hwhole : ∀ x, L.IsTag x → ((insertTag a index h).Whole x ↔ h.Whole x) := fun x hx ↦ by
    rw [State.Whole, hR.tag_insert hI hx, hR.tag_insert hI hx]
    simp [State.Whole]
  have hsame : (L.lists j).countP (fun x ↦ (insertTag a index h).Whole x) =
      (L.lists j).countP fun x ↦ h.Whole x :=
    List.countP_congr fun x hx ↦ by simpa using hwhole x ((hR.mem_iff j x).mp hx).1
  by_cases hj : j = i
  · subst hj
    rw [wholeCount, setList_self, List.countP_cons, hsame, wholeCount]
    simp [hwhole a hI.isTag]
  · rw [if_neg fun hand ↦ hj hand.1, Nat.add_zero, wholeCount, setList_ne hj, hsame, wholeCount]

/-- A join does not touch the tags in the lists. -/
theorem wholeCount_join {L' : Layout} (hR : HeapRep h L X) (hc : c ∈ L.runs)
    (htags : L.tags c.1 = u ++ a :: b :: v) (ha : ¬ h.InList a) (hr : h.tag b .splitRight = r)
    (hjoined : Joined h h' L.tagSet a b r) (hlists : L'.lists = L.lists) (j : ℕ) :
    wholeCount h' L' j = wholeCount h L j := by
  refine wholeCount_congr (congrFun hlists j) fun x hx ↦ ?_
  obtain ⟨hxT, hin, -⟩ := (hR.mem_iff j x).mp hx
  have hxa : x ≠ a := fun heq ↦ ha (heq ▸ hin)
  have ha0 : a ≠ 0 := (hR.bounds (Layout.isTag_of_mem hc htags (by simp))).1.ne'
  have hb0 : b ≠ 0 := (hR.bounds (Layout.isTag_of_mem hc htags (by simp))).1.ne'
  rw [State.Whole, hjoined x hxT, hjoined x hxT, State.Whole]
  by_cases hxr : x = r
  · -- the tag behind both has one before it, before and after
    have hleft : h.tag x .splitLeft = b := by
      have htags' : L.tags c.1 = (u ++ [a]) ++ b :: v := by rw [htags, List.append_assoc]; rfl
      have hright := (hR.beside hc htags').2
      rw [← hxr] at hr
      cases v with
      | nil => exact absurd (hr.symm.trans hright) ((hR.bounds hxT).1.ne')
      | cons e v =>
        obtain rfl : x = e := hr.symm.trans hright
        have htags'' : L.tags c.1 = (u ++ [a, b]) ++ x :: v := by
          rw [htags, List.append_assoc]
          rfl
        rw [(hR.beside hc htags'').1, getLastD_append]
        rfl
    simp [hxr, ha0]
    rw [← hxr, hleft]
    exact fun h0 ↦ absurd h0 hb0
  · simp [hxa, hxr]

/-- Neither does a cut. -/
theorem wholeCount_cut {L' : Layout} (hR : HeapRep h L X) (hc : c ∈ L.runs)
    (htags : L.tags c.1 = u ++ a :: v) (ha : ¬ h.InList a) (hr : h.tag a .splitRight = r)
    (hnT : ¬ L.IsTag n) (hn0 : n ≠ 0) (hcut : CutAt h h' (insert n L.tagSet) a n r)
    (hlists : L'.lists = L.lists) (j : ℕ) : wholeCount h' L' j = wholeCount h L j := by
  refine wholeCount_congr (congrFun hlists j) fun x hx ↦ ?_
  obtain ⟨hxT, hin, -⟩ := (hR.mem_iff j x).mp hx
  have hxa : x ≠ a := fun heq ↦ ha (heq ▸ hin)
  have hxn : x ≠ n := fun heq ↦ hnT (heq ▸ hxT)
  have ha0 : a ≠ 0 := (hR.bounds (Layout.isTag_of_mem hc htags (by simp))).1.ne'
  rw [State.Whole, hcut x (.inr hxT), hcut x (.inr hxT), State.Whole]
  by_cases hxr : x = r
  · have hleft : h.tag x .splitLeft = a := by
      have hright := (hR.beside hc htags).2
      rw [← hxr] at hr
      cases v with
      | nil => exact absurd (hr.symm.trans hright) ((hR.bounds hxT).1.ne')
      | cons e v =>
        obtain rfl : x = e := hr.symm.trans hright
        have htags' : L.tags c.1 = (u ++ [a]) ++ x :: v := by rw [htags, List.append_assoc]; rfl
        rw [(hR.beside hc htags').1, getLastD_append]
        rfl
    rw [hxr] at hxn hxa hleft
    simp only [hxr, hxn, hxa, hleft, ha0, hn0, false_and, reduceCtorEq, and_false, and_self,
      if_true, if_false]
  · simp [hxa, hxr, hxn]

end Liballoc
end Borrrdex
