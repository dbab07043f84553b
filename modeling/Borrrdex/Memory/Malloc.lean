import Borrrdex.Memory.HeapLayout

/-!
# The kernel's `malloc` and `free`

`malloc` takes the first area that is large enough from the list for the size, or a new run of
pages, and cuts off what is not needed; `free` joins an area with the free ones beside it, and gives
a run back if it is free as a whole and five others of its size are already waiting.

What happens to the picture of the heap is put together here from the six steps.  The runs come
from a `PageSource`; what is on new pages is whatever it is.  A loop has so many tests of its
condition; `malloc_spec` and `free_spec` say that there are enough.
-/

set_option autoImplicit false

universe u

namespace Borrrdex
namespace Liballoc

open AreaRows DoubleLinks StoredRecords

/-! ## The code -/

/-- `liballoc_alloc` and `liballoc_free`, which may halt the kernel. -/
structure PageSource (σ : Type u) where
  /-- An address, for a number of pages. -/
  alloc : ℕ → σ → Option (ℕ × σ)
  /-- Takes the address and the number back. -/
  free : ℕ → ℕ → σ → Option σ

/-- `MAXCOMPLETE`. -/
def maxComplete : ℤ := 5

/-- `l_pageCount`. -/
def pageCount : ℕ := 16

variable {σ : Type u} (source : PageSource σ)

/-- The number of pages for so many bytes, and at least `l_pageCount`. -/
def pagesFor (bytes : ℕ) : ℕ :=
  let pages := bytes / pageSize
  let pages := if bytes % pageSize ≠ 0 then pages + 1 else pages
  if pages < pageCount then pageCount else pages

/-- What `allocate_new_tag` assigns to the fields of the tag. -/
def fillFirstTag (tag size pages : ℕ) (h : State σ) : State σ :=
  let h := h.setTag tag .magic liballocMagic
  let h := h.setTag tag .size size
  let h := h.setTag tag .realSize (pages * pageSize)
  let h := h.setTag tag .index noIndex
  let h := h.setTag tag .next 0
  let h := h.setTag tag .prev 0
  let h := h.setTag tag .splitLeft 0
  h.setTag tag .splitRight 0

/-- The memory once there are new pages, with something on them. -/
def withPages (fresh : ByteMem) (base pages : ℕ) (m : ByteMem) : ByteMem := fun x ↦
  if base ≤ x ∧ x < base + pageSize * pages then fresh x else m x

/-- `allocate_new_tag`, of an `unsigned int`. -/
def allocateNewTag (fresh : ByteMem) (size : ℕ) (h : State σ) : Option (ℕ × State σ) :=
  let usage := (size + 48) % 2 ^ 32
  let pages := pagesFor usage
  match source.alloc pages h.pages with
  | none => none
  | some (tag, rest) =>
    let h := { h with pages := rest, mem := withPages fresh tag pages h.mem }
    if tag = 0 then some (0, h) else some (tag, fillFirstTag tag size pages h)

/-- The loop of `malloc` that looks for an area in a list. -/
def findTag (size : ℕ) (h : State σ) : ℕ → ℕ → Option ℕ
  | 0, _ => none
  | tests + 1, tag =>
    if tag = 0 then some 0
    else if (h.tag tag .realSize + 2 ^ 64 - 48) % 2 ^ 64 ≥ (size + 48) % 2 ^ 64 then some tag
    else findTag size h tests (h.tag tag .next)

/-- What `malloc` does with the tag it has found: `remainder` is an `unsigned int`, which is also
looked at as an `int`. -/
def takeTag (tag size : ℕ) (h : State σ) : State σ :=
  let h := h.setTag tag .size size
  let remainder := (h.tag tag .realSize + 2 ^ 65 - size - 48 * 2) % 2 ^ 32
  if 0 < remainder ∧ remainder < 2 ^ 31 ∧ 0 ≤ getexp remainder then splitTag tag h else h

/-- `l_completePages[i] += d`. -/
def State.addComplete (h : State σ) (i : ℕ) (d : ℤ) : State σ :=
  { h with completePages := Function.update h.completePages i (h.completePages i + d) }

/-- What `malloc` does when it is called first. -/
def State.initial (h : State σ) : State σ :=
  if h.initialized then h
  else { h with freePages := fun _ ↦ 0, completePages := fun _ ↦ 0, initialized := true }

/-- `malloc`. -/
def malloc (fresh : ByteMem) (tests size : ℕ) (h : State σ) : Option (ℕ × State σ) :=
  let h := h.initial
  let index := listIndex (size % 2 ^ 32)
  match findTag size h tests (h.freePages index) with
  | none => none
  | some 0 =>
    match allocateNewTag source fresh (size % 2 ^ 32) h with
    | none => none
    | some (0, h) => some (0, h)
    | some (tag, h) => some (tag + 48, takeTag tag size h)
  | some tag =>
    let h := removeTag tag h
    let h := if h.Whole tag then h.addComplete index (-1) else h
    some (tag + 48, takeTag tag size h)

/-- The first loop of `free`. -/
def meltLeftLoop : ℕ → ℕ → State σ → Option (ℕ × State σ)
  | 0, _, _ => none
  | tests + 1, tag, h =>
    if h.tag tag .splitLeft ≠ 0 ∧ h.InList (h.tag tag .splitLeft) then
      let (left, h) := meltLeft tag h
      meltLeftLoop tests left (removeTag left h)
    else some (tag, h)

/-- The second one. -/
def absorbRightLoop (tag : ℕ) : ℕ → State σ → Option (State σ)
  | 0, _ => none
  | tests + 1, h =>
    if h.tag tag .splitRight ≠ 0 ∧ h.InList (h.tag tag .splitRight) then
      absorbRightLoop tag tests (absorbRight tag h)
    else some h

/-- What `free` does with the tag in the end. -/
def giveBack (tag : ℕ) (h : State σ) : Option (State σ) :=
  let index := listIndex (room (h.tag tag .realSize))
  if h.Whole tag then
    if h.completePages index = maxComplete then
      match source.free tag (pagesFor (h.tag tag .realSize)) h.pages with
      | none => none
      | some rest => some { h with pages := rest }
    else some (insertTag tag index (h.addComplete index 1))
  else some (insertTag tag index h)

/-- `free`. -/
def free (tests ptr : ℕ) (h : State σ) : Option (State σ) :=
  if ptr = 0 then some h
  else
    let tag := ptr - 48
    if h.tag tag .magic ≠ liballocMagic then some h
    else
      match meltLeftLoop tests tag h with
      | none => none
      | some (tag, h) =>
        match absorbRightLoop tag tests h with
        | none => none
        | some h => giveBack source tag h

/-! ## What the caller sees -/

variable {source} {h h' h'' : State σ} {L L' : Layout} {X S B : Set ℕ} {a b i n r t x size : ℕ}
  {c d : ℕ × ℕ} {l u v : List ℕ} {f : TagField}

/-- The tags of the areas in use. -/
def Live (h : State σ) (L : Layout) : Set ℕ := {a | L.IsTag a ∧ ¬ h.InList a}

/-- The areas with these tags have the same sizes, and the same bytes in them. -/
def SameIn (B : Set ℕ) (h h' : State σ) : Prop :=
  ∀ b ∈ B, h'.tag b .size = h.tag b .size ∧
    ∀ i < h.tag b .size, h'.mem (b + 48 + i) = h.mem (b + 48 + i)

theorem SameIn.refl (B : Set ℕ) (h : State σ) : SameIn B h h := fun _ _ ↦ ⟨rfl, fun _ _ ↦ rfl⟩

theorem SameIn.trans (h₁ : SameIn B h h') (h₂ : SameIn B h' h'') : SameIn B h h'' := by
  intro b hb
  obtain ⟨hsize, hmem⟩ := h₁ b hb
  obtain ⟨hsize', hmem'⟩ := h₂ b hb
  exact ⟨hsize'.trans hsize, fun i hi ↦ (hmem' i (hsize.symm ▸ hi)).trans (hmem i hi)⟩

theorem SameIn.mono {B' : Set ℕ} (h₁ : SameIn B h h') (hsub : B' ⊆ B) : SameIn B' h h' :=
  fun b hb ↦ h₁ b (hsub hb)

/-- The bytes of an area in use are in no other one. -/
theorem HeapRep.outside (hR : HeapRep h L X) (hb : b ∈ Live h L) (hbX : b ∉ X)
    (hi : i < h.tag b .size) (ha : L.IsTag a) (hne : a ≠ b) :
    b + 48 + i < a ∨ a + h.tag a .realSize ≤ b + 48 + i := by
  have hfits := hR.fits b hb.1 hb.2 hbX
  rcases hR.areas ha hb.1 hne with hle | hle
  · exact .inr (by omega)
  · exact .inl (by omega)

theorem HeapRep.outsideTags (hR : HeapRep h L X) (hb : b ∈ Live h L) (hbX : b ∉ X)
    (hi : i < h.tag b .size) : OutsideTags L.tagSet (b + 48 + i) := by
  intro a ha
  by_cases hne : a = b
  · exact .inr (by omega)
  · have hreal := (hR.bounds ha).2.1
    rcases hR.outside hb hbX hi ha hne with hlt | hle
    · exact .inl hlt
    · exact .inr (by omega)

/-- What is written in tags, the caller does not see. -/
theorem HeapRep.sameIn (hR : HeapRep h L X) (hB : ∀ b ∈ B, b ∈ Live h L ∧ b ∉ X)
    (hsize : ∀ b ∈ B, h'.tag b .size = h.tag b .size)
    (hmem : ∀ x, OutsideTags L.tagSet x → h'.mem x = h.mem x) : SameIn B h h' := fun b hb ↦
  ⟨hsize b hb, fun _ hi ↦ hmem _ (hR.outsideTags (hB b hb).1 (hB b hb).2 hi)⟩

/-! ## Taking an area -/

/-- What `takeTag` leaves. -/
structure Taken (h h' : State σ) (L L' : Layout) (a size : ℕ) : Prop where
  rep : HeapRep h' L' ∅
  runs : L'.runs = L.runs
  live : Live h' L' = Live h L
  size_eq : h'.tag a .size = size
  same : SameIn (Live h L \ {a}) h h'
  whole : ∀ i, wholeCount h' L' i = wholeCount h L i
  complete : h'.completePages = h.completePages
  initialized : h'.initialized = h.initialized
  pages : h'.pages = h.pages

/-- The size is written. -/
theorem taken_setSize (hR : HeapRep h L {a}) (haT : L.IsTag a)
    (hroom : 48 + size ≤ h.tag a .realSize) : Taken h (h.setTag a .size size) L L a size := by
  have hreal : h.tag a .realSize < 2 ^ 32 := tag_lt h a .realSize
  have htag : ∀ x, L.IsTag x → ∀ f, (h.setTag a .size size).tag x f =
      if x = a ∧ f = .size then size else h.tag x f := fun x hx f ↦
    tag_setTag hR.separate haT hx (f := .size) (by simp only [boundaryTag]; omega)
  refine ⟨hR.setSize (fun x hx ↦ hx) haT hroom, rfl, ?_, ?_, ?_, fun i ↦ ?_, rfl, rfl, rfl⟩
  · ext x
    refine and_congr_right fun hx ↦ not_congr ?_
    rw [State.InList, htag x hx, State.InList]
    simp
  · rw [htag a haT]
    simp
  · refine hR.sameIn (B := Live h L \ {a}) (fun b hb ↦ hb) (fun b hb ↦ ?_) fun x hx ↦
      mem_setTag hx haT
    rw [htag b hb.1.1]
    simp [show b ≠ a from hb.2]
  · refine wholeCount_congr rfl fun x hx ↦ ?_
    have hx := ((hR.mem_iff i x).mp hx).1
    rw [State.Whole, htag x hx, htag x hx, State.Whole]
    simp

/-- The rest of the area is cut off and put in a list. -/
theorem taken_splitTag (hR : HeapRep h L ∅) (hc : c ∈ L.runs) (htags : L.tags c.1 = u ++ a :: v)
    (ha : ¬ h.InList a) (hroom : 48 + h.tag a .size + 48 ≤ h.tag a .realSize)
    (hv : ∀ x ∈ v.head?, ¬ h.InList x) :
    ∃ L', Taken h (splitTag a h) L L' a (h.tag a .size) := by
  obtain ⟨n, hn⟩ : ∃ n, a + 48 + h.tag a .size = n := ⟨_, rfl⟩
  obtain ⟨r, hr⟩ : ∃ r, h.tag a .splitRight = r := ⟨_, rfl⟩
  have hmemT : ∀ x ∈ u ++ a :: v, L.IsTag x := fun x ↦ Layout.isTag_of_mem hc htags
  have haT : L.IsTag a := hmemT a (by simp)
  have hpos := (hR.bounds haT).1
  have hnT : ¬ L.IsTag n := hR.not_isTag haT (by omega) (by omega)
  have hS := hR.separate_insert haT (n := n) (by omega) (by omega)
  have hnS : n ∈ insert n L.tagSet := .inl rfl
  have hsub : ∀ x, L.IsTag x → x ∈ insert n L.tagSet := fun x hx ↦ .inr hx
  have hrS : TagOrNull (insert n L.tagSet) r := by
    rw [← hr, (hR.beside hc htags).2]
    exact tagOrNull_headD fun x hx ↦ hsub x (hmemT x (by simp [hx]))
  obtain ⟨h', hsplit, htag, hmem, hfree, hcomplete, hinit, hpages⟩ :=
    splitTag_eq hS (hsub a haT) hn hnS hr hrS (by omega)
  -- the index of the new tag is not set before `insert_tag`, which does not look at it
  have hcut : CutAt h (h'.setTag n .index noIndex) (insert n L.tagSet) a n r := fun x hx f ↦ by
    rw [tag_setTag hS hnS hx (by decide), htag x hx]
  rw [← insertTag_setTag_index (v := noIndex) hS hnS] at hsplit
  obtain ⟨h₁, hh₁⟩ : ∃ h₁, h'.setTag n .index noIndex = h₁ := ⟨_, rfl⟩
  have hmem₁ : ∀ x, OutsideTags (insert n L.tagSet) x → h₁.mem x = h.mem x := fun x hx ↦ by
    rw [← hh₁, mem_setTag hx hnS, hmem x hx]
  have hfree₁ : h₁.freePages = h.freePages := by rw [← hh₁]; exact hfree
  have hcomplete₁ : h₁.completePages = h.completePages := by rw [← hh₁]; exact hcomplete
  have hinit₁ : h₁.initialized = h.initialized := by rw [← hh₁]; exact hinit
  have hpages₁ : h₁.pages = h.pages := by rw [← hh₁]; exact hpages
  rw [hh₁] at hsplit hcut
  have hcutR := hR.cut hc htags ha hn hroom hr hfree₁ hcut
  have hna : a ≠ n := by omega
  have hindex : ∀ x, L.IsTag x → h₁.tag x .index = h.tag x .index := fun x hx ↦ by
    have hxn : x ≠ n := fun heq ↦ hnT (heq ▸ hx)
    rw [hcut x (.inr hx)]
    simp [hxn]
  have hin : ∀ x, L.IsTag x → (h₁.InList x ↔ h.InList x) := fun x hx ↦ by
    rw [State.InList, hindex x hx, State.InList]
  have hnin : ¬ h₁.InList n := by
    rw [State.InList, hcut n (.inl rfl)]
    simp [noIndex]
  have htags₁ : (L.setTags c.1 (u ++ a :: n :: v)).tags c.1 = (u ++ [a]) ++ n :: v := by
    rw [setTags_self, List.append_assoc]
    rfl
  have hisTag : ∀ x, (L.setTags c.1 (u ++ a :: n :: v)).IsTag x ↔ L.IsTag x ∨ x = n := by
    intro x
    rw [hR.isTag_setTags hc, htags]
    have hx := hmemT x
    simp only [List.mem_append, List.mem_cons] at hx ⊢
    tauto
  have hI : Insertable h₁ (L.setTags c.1 (u ++ a :: n :: v)) (-1)
      (listIndex (room (h₁.tag n .realSize))) n :=
    ⟨(hisTag n).mpr (.inr rfl), hnin, if_pos (by decide), rfl⟩
  have hrep := hcutR.insert (fun x hx ↦ hx) hI hc htags₁ (fun x hx ↦ by
      obtain rfl : a = x := by simpa using hx
      exact fun h' ↦ ha ((hin a haT).mp h')) fun x hx h' ↦
    hv x hx ((hin x (hmemT x (by simp [List.mem_of_mem_head? hx]))).mp h')
  have hnotwhole : ¬ h₁.Whole n := by
    rintro ⟨hleft, -⟩
    rw [hcut n (.inl rfl)] at hleft
    by_cases hrn : n = r
    · simp [← hrn, hna.symm] at hleft
      omega
    · simp [hrn, hna.symm] at hleft
      omega
  have hsame : ∀ x, L.IsTag x → ∀ f, f ≠ .next → f ≠ .prev → f ≠ .index → f ≠ .realSize →
      f ≠ .splitLeft → f ≠ .splitRight → (insertTag n (-1) h₁).tag x f = h.tag x f := by
    intro x hx f h1 h2 h3 h4 h5 h6
    have hxn : x ≠ n := fun heq ↦ hnT (heq ▸ hx)
    rw [hcutR.tag_insert hI ((hisTag x).mpr (.inl hx)), hcut x (.inr hx)]
    simp [h1, h2, h3, h4, h5, h6, hxn]
  rw [hsplit]
  obtain ⟨hcomplete₂, hinit₂, hpages₂⟩ := rest_insertTag n (-1) h₁
  refine ⟨_, hrep, rfl, ?_, ?_, fun b hb ↦ ⟨?_, fun k hk ↦ ?_⟩, fun j ↦ ?_,
    hcomplete₂.trans hcomplete₁, hinit₂.trans hinit₁, hpages₂.trans hpages₁⟩
  · ext x
    show (L.setTags c.1 (u ++ a :: n :: v)).IsTag x ∧ ¬ (insertTag n (-1) h₁).InList x ↔ _
    constructor
    · rintro ⟨hx, hno⟩
      rw [inList_insertTag hcutR hI hx] at hno
      have hxT := ((hisTag x).mp hx).resolve_right fun heq ↦ hno (.inr heq)
      exact ⟨hxT, fun h' ↦ hno (.inl ((hin x hxT).mpr h'))⟩
    · rintro ⟨hx, hno⟩
      have hx' := (hisTag x).mpr (.inl hx)
      refine ⟨hx', ?_⟩
      rw [inList_insertTag hcutR hI hx']
      rintro (h' | rfl)
      · exact hno ((hin x hx).mp h')
      · exact hnT hx
  · exact hsame a haT _ (by simp) (by simp) (by simp) (by simp) (by simp) (by simp)
  · exact hsame b hb.1.1 _ (by simp) (by simp) (by simp) (by simp) (by simp) (by simp)
  · have hbytes : OutsideTags (insert n L.tagSet) (b + 48 + k) := by
      rintro x (rfl | hx)
      · have hab : a ≠ b := fun heq ↦ hb.2 heq.symm
        rcases hR.outside hb.1 (Set.notMem_empty b) hk haT hab with hlt | hle
        · exact .inl (by omega)
        · exact .inr (by omega)
      · exact hR.outsideTags hb.1 (Set.notMem_empty b) hk x hx
    have hbytes₁ : OutsideTags (L.setTags c.1 (u ++ a :: n :: v)).tagSet (b + 48 + k) :=
      fun x hx ↦ hbytes x (((hisTag x).mp hx).symm.imp (fun h' ↦ h') fun h' ↦ h')
    rw [mem_insertTag hbytes₁ hI.isTag hI.index_eq (hcutR.frontTag _), hmem₁ _ hbytes]
  · rw [wholeCount_insert hcutR hI, if_neg fun hand ↦ hnotwhole hand.2, Nat.add_zero]
    exact wholeCount_cut hR hc htags ha hr hnT (by omega) hcut rfl j

/-- **What is done with the tag that is found.** -/
theorem takeTag_spec (hR : HeapRep h L {a}) (hc : c ∈ L.runs) (htags : L.tags c.1 = u ++ a :: v)
    (ha : ¬ h.InList a) (hroom : 48 + size ≤ h.tag a .realSize)
    (hv : ∀ x ∈ v.head?, ¬ h.InList x) : ∃ L', Taken h (takeTag a size h) L L' a size := by
  have haT : L.IsTag a := Layout.isTag_of_mem hc htags (by simp)
  have hreal : h.tag a .realSize < 2 ^ 32 := tag_lt h a .realSize
  have hset := taken_setSize hR haT hroom
  have hreal' : (h.setTag a .size size).tag a .realSize = h.tag a .realSize := by
    rw [tag_setTag_mod hR.separate haT haT]
    simp
  simp only [takeTag, hreal']
  split_ifs with hsplit
  · obtain ⟨hpos, hint, -⟩ := hsplit
    have hin : ∀ x, L.IsTag x → ((h.setTag a .size size).InList x ↔ h.InList x) := fun x hx ↦ by
      rw [State.InList, tag_setTag_mod hR.separate haT hx, State.InList]
      simp
    have hroom' : 48 + size + 48 ≤ h.tag a .realSize := by omega
    obtain ⟨L', hT⟩ := taken_splitTag hset.rep hc htags (fun h' ↦ ha ((hin a haT).mp h'))
      (by rw [hset.size_eq, hreal']; exact hroom') fun x hx h' ↦ hv x hx
        ((hin x (Layout.isTag_of_mem hc htags (by simp [List.mem_of_mem_head? hx]))).mp h')
    refine ⟨L', hT.rep, hT.runs.trans hset.runs, hT.live.trans hset.live,
      hT.size_eq.trans hset.size_eq, ?_, fun i ↦ (hT.whole i).trans (hset.whole i),
      hT.complete.trans hset.complete, hT.initialized.trans hset.initialized,
      hT.pages.trans hset.pages⟩
    exact hset.same.trans (hT.same.mono fun x hx ↦ ⟨hset.live.symm ▸ hx.1, hx.2⟩)
  · exact ⟨L, hset⟩

/-! ## Looking for an area -/

/-- **The first area of the list that is large enough**, or null if there is none. -/
theorem findTag_spec (size : ℕ) {p tests : ℕ} (hl : Links (h.tag · .prev) (h.tag · .next) p l 0)
    (hl0 : ∀ x ∈ l, x ≠ 0) (hreal : ∀ x ∈ l, 48 ≤ h.tag x .realSize) (hsize : size + 48 < 2 ^ 64)
    (htests : l.length < tests) :
    findTag size h tests (l.headD 0) = some 0 ∨
      ∃ u a v, l = u ++ a :: v ∧ findTag size h tests (l.headD 0) = some a ∧
        48 + (48 + size) ≤ h.tag a .realSize := by
  induction l generalizing p tests with
  | nil =>
    obtain ⟨tests, rfl⟩ := Nat.exists_eq_add_of_lt htests
    exact .inl (by simp [findTag])
  | cons a l ih =>
    obtain ⟨tests, rfl⟩ : ∃ k, tests = k + 1 := ⟨tests - 1, by omega⟩
    obtain ⟨ha0, hl0⟩ := List.forall_mem_cons.mp hl0
    obtain ⟨ha, hreal⟩ := List.forall_mem_cons.mp hreal
    obtain ⟨-, hnext, hl⟩ := hl
    have hlt : h.tag a .realSize < 2 ^ 32 := tag_lt h a .realSize
    have hnext : h.tag a .next = l.headD 0 := hnext
    rw [List.headD_cons, findTag, if_neg ha0]
    by_cases hfit : (h.tag a .realSize + 2 ^ 64 - 48) % 2 ^ 64 ≥ (size + 48) % 2 ^ 64
    · exact .inr ⟨[], a, l, rfl, if_pos hfit, by omega⟩
    · rw [if_neg hfit, hnext]
      rcases ih hl hl0 hreal (Nat.lt_of_succ_lt_succ htests) with hnone | ⟨u, b, v, rfl, hb, hroom⟩
      · exact .inl hnone
      · exact .inr ⟨a :: u, b, v, rfl, hb, hroom⟩

/-! ## A new run -/

/-- What is relied on: the runs that are handed out do not overlap, and are taken back. -/
structure PageSource.Sound (source : PageSource σ) (Holds : σ → List (ℕ × ℕ) → Prop) : Prop where
  alloc : ∀ {s s' runs n a}, Holds s runs → 1 ≤ n → source.alloc n s = some (a, s') →
    0 < a ∧ a + 4096 * n ≤ 2 ^ 64 ∧
      (∀ d ∈ runs, a + 4096 * n ≤ d.1 ∨ d.1 + 4096 * d.2 ≤ a) ∧ Holds s' ((a, n) :: runs)
  free : ∀ {s runs c}, Holds s runs → c ∈ runs →
    ∃ s', source.free c.1 c.2 s = some s' ∧ Holds s' (runs.erase c)

theorem pagesFor_eq (bytes : ℕ) : pagesFor bytes = max 16 ((bytes + 4095) / 4096) := by
  have hup : (if bytes % pageSize ≠ 0 then bytes / pageSize + 1 else bytes / pageSize) =
      (bytes + 4095) / 4096 := by
    show (if bytes % 4096 ≠ 0 then bytes / 4096 + 1 else bytes / 4096) = _
    split <;> omega
  rw [pagesFor, hup]
  show (if (bytes + 4095) / 4096 < 16 then 16 else (bytes + 4095) / 4096) = _
  split <;> omega

/-- A whole run has the number of pages it was made of. -/
theorem pagesFor_mul {n : ℕ} (hn : 16 ≤ n) : pagesFor (4096 * n) = n := by
  rw [pagesFor_eq]
  omega

theorem tag_fillFirstTag {pages : ℕ} (hS : Separate S) (ha : a ∈ S) (hx : x ∈ S)
    (hsize : size < 2 ^ 32) (hpages : pages * pageSize < 2 ^ 32) :
    (fillFirstTag a size pages h).tag x f =
      if x = a then
        match f with
        | .magic => liballocMagic
        | .size => size
        | .realSize => pages * pageSize
        | .index => noIndex
        | _ => 0
      else h.tag x f := by
  unfold fillFirstTag
  rw [tag_setTag hS ha hx (by decide), tag_setTag hS ha hx (by decide),
    tag_setTag hS ha hx (by decide), tag_setTag hS ha hx (by decide),
    tag_setTag hS ha hx (v := noIndex) (f := .index) (by decide),
    tag_setTag hS ha hx (v := pages * pageSize) (f := .realSize) hpages,
    tag_setTag hS ha hx (v := size) (f := .size) hsize, tag_setTag hS ha hx (by decide)]
  cases f <;> by_cases hxa : x = a <;> simp [hxa]

theorem mem_fillFirstTag {pages : ℕ} (hx : OutsideTags S x) (ha : a ∈ S) :
    (fillFirstTag a size pages h).mem x = h.mem x := by
  unfold fillFirstTag
  simp only [mem_setTag hx ha]

/-- What a call leaves that takes an area. -/
structure Gained (Holds : σ → List (ℕ × ℕ) → Prop) (h h' : State σ) (L L' : Layout) (a : ℕ) :
    Prop where
  fresh : a ∉ Live h L
  live : Live h' L' = insert a (Live h L)
  same : SameIn (Live h L) h h'
  holds : Holds h'.pages L'.runs
  initialized : h'.initialized = h.initialized

variable {Holds : σ → List (ℕ × ℕ) → Prop} {fresh : ByteMem}

/-- **`allocate_new_tag`** adds a run with one tag, unless there are no pages. -/
theorem allocateNewTag_spec (fresh : ByteMem) (hsound : source.Sound Holds)
    (hR : HeapRep h L ∅) (hholds : Holds h.pages L.runs) (hsize : size + 48 + 4096 ≤ 2 ^ 32) :
    allocateNewTag source fresh size h = none ∧
        source.alloc (pagesFor (size + 48)) h.pages = none ∨
      ∃ a n h', allocateNewTag source fresh size h = some (a, h') ∧ a ≠ 0 ∧
        HeapRep h' (L.addRun a n) {a} ∧ Gained Holds h h' L (L.addRun a n) a ∧ ¬ h'.InList a ∧
        48 + size ≤ h'.tag a .realSize ∧
        (∀ i, wholeCount h' (L.addRun a n) i = wholeCount h L i) ∧
        h'.completePages = h.completePages := by
  obtain ⟨n, hn⟩ : ∃ n, pagesFor (size + 48) = n := ⟨_, rfl⟩
  have hmax := pagesFor_eq (size + 48)
  rw [hn] at hmax
  have husage : (size + 48) % 2 ^ 32 = size + 48 := Nat.mod_eq_of_lt (by omega)
  rw [allocateNewTag, husage, hn]
  cases halloc : source.alloc n h.pages with
  | none => exact .inl ⟨rfl, rfl⟩
  | some p =>
    obtain ⟨a, rest⟩ := p
    obtain ⟨hpos, hbelow, hapart, hholds'⟩ := hsound.alloc hholds (by omega) halloc
    obtain ⟨h₀, hh₀⟩ : ∃ h₀ : State σ,
      h₀ = { h with pages := rest, mem := withPages fresh a n h.mem } := ⟨_, rfl⟩
    have hcall : (if a = 0 then some (0, h₀) else some (a, fillFirstTag a size n h₀)) =
        some (a, fillFirstTag a size n h₀) := if_neg hpos.ne'
    have hrun : 0 < a ∧ 16 ≤ n ∧ 4096 * n < 2 ^ 32 ∧ a + 4096 * n ≤ 2 ^ 64 := by omega
    have hareas : ∀ x, L.IsTag x → a + 4096 * n ≤ x ∨ x + h.tag x .realSize ≤ a := by
      rintro x ⟨d, hd, hx⟩
      obtain ⟨hlo, -, hhi⟩ := hR.inside hd hx
      rcases hapart d hd with hle | hle
      · exact .inl (by omega)
      · exact .inr (by omega)
    have haT : ¬ L.IsTag a := fun ha ↦ by
      have hreal := (hR.bounds ha).2.1
      rcases hareas a ha with hle | hle <;> omega
    have hS : Separate (insert a L.tagSet) := by
      have hold := hR.separate
      have hnew : ∀ x ∈ L.tagSet, a + 48 ≤ x ∨ x + 48 ≤ a := fun x hx ↦ by
        have hreal := (hR.bounds hx).2.1
        rcases hareas x hx with hle | hle
        · exact .inl (by omega)
        · exact .inr (by omega)
      refine ⟨?_, ?_, ?_⟩
      · rintro x (rfl | hx)
        · exact hpos
        · exact hold.pos x hx
      · rintro x (rfl | hx)
        · omega
        · exact hold.below x hx
      · rintro x (rfl | hx) y (rfl | hy)
        · exact .inl rfl
        · exact .inr (hnew y hy)
        · exact .inr (hnew x hx).symm
        · exact hold.apart x hx y hy
    have haS : a ∈ insert a L.tagSet := .inl rfl
    have htag : ∀ x, x ∈ insert a L.tagSet → ∀ f, (fillFirstTag a size n h₀).tag x f = _ :=
      fun x hx f ↦ tag_fillFirstTag hS haS hx (by omega) (by rw [pageSize]; omega)
    have hmem₀ : ∀ x, ¬(a ≤ x ∧ x < a + 4096 * n) → h₀.mem x = h.mem x := fun x hx ↦ by
      rw [hh₀]
      exact if_neg hx
    have hold : ∀ x, L.IsTag x → ∀ f, (fillFirstTag a size n h₀).tag x f = h.tag x f := by
      intro x hx f
      have hxa : x ≠ a := fun heq ↦ haT (heq ▸ hx)
      rw [htag x (.inr hx), if_neg hxa]
      refine tag_congr fun y hlo hhi ↦ hmem₀ y ?_
      have hreal := (hR.bounds hx).2.1
      rcases hareas x hx with hle | hle <;> omega
    have hrest : (fillFirstTag a size n h₀).freePages = h.freePages ∧
        (fillFirstTag a size n h₀).completePages = h.completePages ∧
        (fillFirstTag a size n h₀).initialized = h.initialized ∧
        (fillFirstTag a size n h₀).pages = rest := by
      simp [fillFirstTag, hh₀]
    obtain ⟨hfree, hcomplete, hinit, hpages⟩ := hrest
    have hnew := htag a haS
    simp only [if_true] at hnew
    have hrep : HeapRep (fillFirstTag a size n h₀) (L.addRun a n) {a} := by
      refine hR.addRun hrun hapart hfree hold (hnew .magic) ?_ (hnew .index) fun f hf ↦ ?_
      · rw [hnew .realSize, pageSize, Nat.mul_comm]
      · rcases hf with rfl | rfl | rfl | rfl <;> exact hnew _
    have hnin : ¬ (fillFirstTag a size n h₀).InList a := by
      rw [State.InList, hnew]
      simp [noIndex]
    refine .inr ⟨a, n, fillFirstTag a size n h₀, ?_, hpos.ne', hrep, ⟨fun ha ↦ haT ha.1, ?_, ?_,
      ?_, hinit⟩, hnin, ?_, fun i ↦ ?_, hcomplete⟩
    · rw [← hcall, hh₀]
    · have hne : ∀ d ∈ L.runs, d.1 ≠ a := fun d hd heq ↦ by
        have hpages := (hR.run d hd).2.1
        rcases hapart d hd with hle | hle <;> omega
      ext x
      show (L.addRun a n).IsTag x ∧ _ ↔ x = a ∨ L.IsTag x ∧ _
      rw [L.isTag_addRun hne]
      constructor
      · rintro ⟨rfl | hx, hno⟩
        · exact .inl rfl
        · rw [State.InList, hold x hx] at hno
          exact .inr ⟨hx, hno⟩
      · rintro (rfl | ⟨hx, hno⟩)
        · exact ⟨.inl rfl, hnin⟩
        · refine ⟨.inr hx, ?_⟩
          rw [State.InList, hold x hx]
          exact hno
    · refine fun b hb ↦ ⟨hold b hb.1 _, fun i hi ↦ ?_⟩
      have hfits := hR.fits b hb.1 hb.2 (Set.notMem_empty b)
      have hout : OutsideTags (insert a L.tagSet) (b + 48 + i) := by
        rintro x (rfl | hx)
        · rcases hareas b hb.1 with hle | hle
          · exact .inr (by omega)
          · exact .inl (by omega)
        · exact hR.outsideTags hb (Set.notMem_empty b) hi x hx
      rw [mem_fillFirstTag hout haS]
      refine hmem₀ _ ?_
      rcases hareas b hb.1 with hle | hle <;> omega
    · rw [hpages]
      exact hholds'
    · rw [hnew .realSize]
      simp only [pageSize]
      omega
    · refine wholeCount_congr rfl fun x hx ↦ ?_
      have hx := ((hR.mem_iff i x).mp hx).1
      rw [State.Whole, hold x hx, hold x hx, State.Whole]

/-! ## `malloc` -/

/-- **What the allocator keeps**: the heap is as in a picture, `l_completePages` counts the whole
runs that are free, at most five for each size, and the runs are the ones it has from the source. -/
structure Consistent (Holds : σ → List (ℕ × ℕ) → Prop) (h : State σ) (L : Layout) : Prop where
  rep : HeapRep h L ∅
  counted : ∀ i, h.completePages i = wholeCount h L i
  few : ∀ i, h.completePages i ≤ maxComplete
  holds : Holds h.pages L.runs
  initialized : h.initialized = false → L.runs = []

theorem tag_eq_of_mem (hmem : h'.mem = h.mem) (x : ℕ) (f : TagField) : h'.tag x f = h.tag x f :=
  tag_congr fun y _ _ ↦ congrFun hmem y

/-- What does not change anything in memory. -/
theorem live_congr (hmem : h'.mem = h.mem) : Live h' L = Live h L := by
  ext x
  refine and_congr_right fun _ ↦ not_congr ?_
  rw [State.InList, tag_eq_of_mem hmem, State.InList]

theorem sameIn_congr (hmem : h'.mem = h.mem) : SameIn B h h' := fun _ _ ↦
  ⟨tag_eq_of_mem hmem _ _, fun _ _ ↦ congrFun hmem _⟩

theorem wholeCount_mem (hmem : h'.mem = h.mem) (i : ℕ) : wholeCount h' L i = wholeCount h L i :=
  wholeCount_congr rfl fun x _ ↦ by
    rw [State.Whole, tag_eq_of_mem hmem, tag_eq_of_mem hmem, State.Whole]

/-- The first call finds an empty heap, and leaves it empty. -/
theorem Consistent.initial (hC : Consistent Holds h L) :
    Consistent Holds h.initial L ∧ h.initial.freePages = h.freePages ∧
      h.initial.completePages = h.completePages ∧ h.initial.mem = h.mem ∧
      h.initial.pages = h.pages ∧ h.initial.initialized = true := by
  have hall : h.initial.freePages = h.freePages ∧ h.initial.completePages = h.completePages ∧
      h.initial.mem = h.mem ∧ h.initial.pages = h.pages ∧ h.initial.initialized = true := by
    cases hinit : h.initialized with
    | true => simp [State.initial, hinit]
    | false =>
      have hruns := hC.initialized hinit
      have hlists : ∀ i, L.lists i = [] := fun i ↦ by
        refine List.eq_nil_iff_forall_not_mem.mpr fun x hx ↦ ?_
        obtain ⟨⟨d, hd, -⟩, -⟩ := (hC.rep.mem_iff i x).mp hx
        rw [hruns] at hd
        cases hd
      have hfree : h.freePages = fun _ ↦ 0 := funext fun i ↦ by rw [hC.rep.front, hlists]; rfl
      have hcomplete : h.completePages = fun _ ↦ 0 := funext fun i ↦ by
        rw [hC.counted, wholeCount, hlists]
        rfl
      simp [State.initial, hinit, hfree, hcomplete]
  obtain ⟨hfree, hcomplete, hmem, hpages, hinit⟩ := hall
  refine ⟨⟨hC.rep.congr hfree fun x _ ↦ tag_eq_of_mem hmem x, fun i ↦ ?_, fun i ↦ ?_, ?_,
    fun hno ↦ ?_⟩, hfree, hcomplete, hmem, hpages, hinit⟩
  · rw [hcomplete, wholeCount_mem hmem, hC.counted]
  · rw [hcomplete]
    exact hC.few i
  · rw [hpages]
    exact hC.holds
  · rw [hinit] at hno
    cases hno

/-- Beside a free area there is none. -/
theorem HeapRep.beside_free (hR : HeapRep h L X) (hc : c ∈ L.runs)
    (htags : L.tags c.1 = u ++ a :: v) (ha : h.InList a) :
    (∀ x ∈ u.getLast?, ¬ h.InList x) ∧ ∀ x ∈ v.head?, ¬ h.InList x := by
  have hold := hR.coalesced c hc
  rw [htags, Alternating, List.isChain_append, List.isChain_cons] at hold
  obtain ⟨-, ⟨hv, -⟩, hu⟩ := hold
  exact ⟨fun x hx hin ↦ hu x hx a rfl ⟨hin, ha⟩, fun x hx hin ↦ hv x hx ⟨ha, hin⟩⟩

/-- `malloc` with an area from a list. -/
theorem malloc_found (hC : Consistent Holds h L) (hinit : h.initialized = true)
    (hlist : L.lists i = u ++ a :: v) (hroom : 48 + (48 + size) ≤ h.tag a .realSize) :
    ∃ L', Consistent Holds (takeTag a size (if (removeTag a h).Whole a then
        (removeTag a h).addComplete i (-1) else removeTag a h)) L' ∧
      Gained Holds h (takeTag a size (if (removeTag a h).Whole a then
        (removeTag a h).addComplete i (-1) else removeTag a h)) L L' a ∧
      (takeTag a size (if (removeTag a h).Whole a then
        (removeTag a h).addComplete i (-1) else removeTag a h)).tag a .size = size := by
  have hR := hC.rep
  have hrem := hR.toListed.removable hlist
  obtain ⟨c, hc, hac⟩ := hrem.isTag
  obtain ⟨u', v', htags⟩ := List.append_of_mem hac
  obtain ⟨-, hbeside⟩ := hR.beside_free hc htags hrem.inList
  have hrep := hR.remove hlist
  rw [insert_empty_eq] at hrep
  have hkeep : ∀ x, L.IsTag x → ∀ f, f ≠ .next → f ≠ .prev → f ≠ .index →
      (removeTag a h).tag x f = h.tag x f := fun x hx f h1 h2 h3 ↦ by
    rw [hR.tag_remove hlist hx]
    simp [h1, h2, h3]
  have hwhole : (removeTag a h).Whole a ↔ h.Whole a := by
    rw [State.Whole, hkeep a hrem.isTag _ (by simp) (by simp) (by simp),
      hkeep a hrem.isTag _ (by simp) (by simp) (by simp), State.Whole]
  obtain ⟨hcomplete, hinit', hpages⟩ := rest_removeTag a h
  obtain ⟨h₂, hh₂⟩ : ∃ h₂, (if (removeTag a h).Whole a then (removeTag a h).addComplete i (-1)
    else removeTag a h) = h₂ := ⟨_, rfl⟩
  have hmem₂ : h₂.mem = (removeTag a h).mem := by
    rw [← hh₂]
    split <;> rfl
  have hfree₂ : h₂.freePages = (removeTag a h).freePages := by
    rw [← hh₂]
    split <;> rfl
  have hinit₂ : h₂.initialized = h.initialized := by
    rw [← hh₂, ← hinit']
    split <;> rfl
  have hpages₂ : h₂.pages = h.pages := by
    rw [← hh₂, ← hpages]
    split <;> rfl
  have hcomplete₂ : ∀ j, h₂.completePages j =
      h.completePages j - if j = i ∧ h.Whole a then 1 else 0 := fun j ↦ by
    rw [← hh₂, ← hcomplete]
    by_cases hw : h.Whole a
    · rw [if_pos (hwhole.mpr hw)]
      by_cases hj : j = i
      · simp [State.addComplete, hj, hw]
        omega
      · simp [State.addComplete, hj]
    · rw [if_neg fun hw' ↦ hw (hwhole.mp hw')]
      simp [hw]
  rw [hh₂]
  have hrep₂ := hrep.congr hfree₂ fun x _ ↦ tag_eq_of_mem hmem₂ x
  have htag₂ : ∀ x f, h₂.tag x f = (removeTag a h).tag x f := tag_eq_of_mem hmem₂
  have hin₂ : ∀ x, L.IsTag x → (h₂.InList x ↔ h.InList x ∧ x ≠ a) := fun x hx ↦ by
    rw [State.InList, htag₂]
    exact inList_removeTag hR hlist hx
  obtain ⟨L', hT⟩ : ∃ L', Taken h₂ (takeTag a size h₂) _ L' a size := takeTag_spec hrep₂ hc htags
    (fun hin ↦ ((hin₂ a hrem.isTag).mp hin).2 rfl)
    (by rw [htag₂, hkeep a hrem.isTag _ (by simp) (by simp) (by simp)]; omega)
    fun x hx hin ↦ hbeside x hx
      ((hin₂ x (Layout.isTag_of_mem hc htags (by simp [List.mem_of_mem_head? hx]))).mp hin).1
  have hlive : Live h₂ (L.setList i (u ++ v)) = insert a (Live h L) := by
    ext x
    show L.IsTag x ∧ ¬ h₂.InList x ↔ x = a ∨ L.IsTag x ∧ ¬ h.InList x
    have hax : x = a → L.IsTag x := fun heq ↦ heq ▸ hrem.isTag
    constructor
    · rintro ⟨hx, hno⟩
      rw [hin₂ x hx] at hno
      tauto
    · rintro (rfl | ⟨hx, hno⟩)
      · exact ⟨hrem.isTag, fun hin ↦ ((hin₂ x hrem.isTag).mp hin).2 rfl⟩
      · exact ⟨hx, fun hin ↦ hno ((hin₂ x hx).mp hin).1⟩
  have hcounts : ∀ j, (takeTag a size h₂).completePages j = wholeCount (takeTag a size h₂) L' j :=
    fun j ↦ by
      have hcount := wholeCount_remove hR hlist j
      rw [hT.complete, hT.whole, hcomplete₂, hC.counted, wholeCount_mem hmem₂]
      split_ifs at hcount ⊢ <;> omega
  have hfresh : a ∉ Live h L := fun hl ↦ hl.2 hrem.inList
  refine ⟨L', ⟨hT.rep, hcounts, fun j ↦ ?_, ?_, fun hno ↦ ?_⟩, ⟨hfresh, hT.live.trans hlive, ?_, ?_,
    hT.initialized.trans hinit₂⟩, hT.size_eq⟩
  · have hfew := hC.few j
    rw [hT.complete, hcomplete₂]
    split_ifs <;> omega
  · rw [hT.pages, hpages₂, hT.runs]
    exact hC.holds
  · rw [hT.initialized, hinit₂, hinit] at hno
    cases hno
  · have hfirst : SameIn (Live h L) h (removeTag a h) :=
      hR.sameIn (fun b hb ↦ ⟨hb, Set.notMem_empty b⟩)
        (fun b hb ↦ hkeep b hb.1 _ (by simp) (by simp) (by simp)) fun x hx ↦
          mem_removeTag hx hR.separate hrem.isTag hrem.prevTag hrem.nextTag hrem.prev_ne
    refine (hfirst.trans (sameIn_congr hmem₂)).trans (hT.same.mono fun b hb ↦ ⟨?_, ?_⟩)
    · rw [hlive]
      exact .inr hb
    · rintro rfl
      exact hfresh hb
  · rw [hT.pages, hpages₂, hT.runs]
    exact hC.holds

theorem Consistent.real (hC : Consistent Holds h L) (hx : x ∈ L.lists i) :
    48 ≤ h.tag x .realSize :=
  (hC.rep.bounds ((hC.rep.mem_iff i x).mp hx).1).2.1

theorem malloc_eq_of_new {tests : ℕ} (hsize : size < 2 ^ 32) {h₁ : State σ}
    (hfind : findTag size h.initial tests (h.initial.freePages (listIndex size)) = some 0)
    (hcall : allocateNewTag source fresh size h.initial = some (a, h₁)) (ha : a ≠ 0) :
    malloc source fresh tests size h = some (a + 48, takeTag a size h₁) := by
  obtain ⟨k, rfl⟩ := Nat.exists_eq_succ_of_ne_zero ha
  simp only [malloc, Nat.mod_eq_of_lt hsize, hfind, hcall]

theorem malloc_eq_of_found {tests : ℕ} (hsize : size < 2 ^ 32)
    (hfind : findTag size h.initial tests (h.initial.freePages (listIndex size)) = some a)
    (ha : a ≠ 0) :
    malloc source fresh tests size h =
      some (a + 48, takeTag a size (if (removeTag a h.initial).Whole a then
        (removeTag a h.initial).addComplete (listIndex size) (-1) else removeTag a h.initial)) := by
  obtain ⟨k, rfl⟩ := Nat.exists_eq_succ_of_ne_zero ha
  simp only [malloc, Nat.mod_eq_of_lt hsize, hfind]

/-- **`malloc`**: an area that was not in use and is as large as is asked for, whatever else is in
use staying as it is; or there are no pages. -/
theorem malloc_spec (fresh : ByteMem) (hsound : source.Sound Holds) (hC : Consistent Holds h L)
    (hsize : size + 48 + 4096 ≤ 2 ^ 32) {tests : ℕ}
    (htests : (L.lists (listIndex size)).length < tests) :
    malloc source fresh tests size h = none ∧
        source.alloc (pagesFor (size + 48)) h.pages = none ∨
      ∃ a h' L', malloc source fresh tests size h = some (a + 48, h') ∧ a ≠ 0 ∧
        Consistent Holds h' L' ∧ Live h' L' = insert a (Live h L) ∧ a ∉ Live h L ∧
        h'.tag a .size = size ∧ SameIn (Live h L) h h' := by
  obtain ⟨hC₀, hfree, hcomplete, hmem, hpages, hinit⟩ := hC.initial
  have hlt : size < 2 ^ 32 := by omega
  have hlive := live_congr (L := L) hmem
  have hsame := sameIn_congr (B := Live h L) hmem
  have hlinked := (hC₀.rep.linked (listIndex size))
  rcases findTag_spec size hlinked.links hlinked.ne_zero (fun x hx ↦ hC₀.real hx)
    (by omega) htests with hnone | ⟨u, a, v, hlist, hfound, hroom⟩
  · rw [← hC₀.rep.front] at hnone
    rcases allocateNewTag_spec fresh hsound hC₀.rep hC₀.holds hsize with
      ⟨hno, hsource⟩ | ⟨a, n, h₁, hcall, ha0, hrep, hgain, hnin, hroom, hwhole, hcomplete₁⟩
    · left
      rw [hpages] at hsource
      exact ⟨by simp only [malloc, Nat.mod_eq_of_lt hlt, hnone, hno], hsource⟩
    · right
      have htags : (L.addRun a n).tags (a, n).1 = [] ++ a :: [] := Function.update_self ..
      obtain ⟨L', hT⟩ := takeTag_spec hrep List.mem_cons_self htags hnin hroom fun x hx ↦ by
        cases hx
      refine ⟨a, _, L', malloc_eq_of_new hlt hnone hcall ha0, ha0,
        ⟨hT.rep, fun i ↦ ?_, fun i ↦ ?_, ?_, fun hno ↦ ?_⟩, ?_, ?_, hT.size_eq, ?_⟩
      · rw [hT.complete, hT.whole, hwhole, hcomplete₁, hC₀.counted]
      · rw [hT.complete, hcomplete₁]
        exact hC₀.few i
      · rw [hT.pages, hT.runs]
        exact hgain.holds
      · rw [hT.initialized, hgain.initialized, hinit] at hno
        cases hno
      · rw [hT.live, hgain.live, hlive]
      · rw [← hlive]
        exact hgain.fresh
      · refine (hsame.trans ((hlive ▸ hgain.same).trans (hT.same.mono fun b hb ↦ ⟨?_, ?_⟩)))
        · rw [hgain.live, hlive]
          exact .inr hb
        · rintro rfl
          exact hgain.fresh (hlive.symm ▸ hb)
  · rw [← hC₀.rep.front] at hfound
    have ha0 : a ≠ 0 := hlinked.ne_zero a (hlist ▸ by simp)
    obtain ⟨L', hC', hgain, hsize'⟩ := malloc_found hC₀ hinit hlist hroom
    refine .inr ⟨a, _, L', malloc_eq_of_found hlt hfound ha0, ha0, hC', ?_, ?_, hsize',
      hsame.trans (hlive ▸ hgain.same)⟩
    · rw [hgain.live, hlive]
    · rw [← hlive]
      exact hgain.fresh

/-! ## `free` -/

/-- What has become of the area of the tag `a`, which is to be freed: it is part of the one of `t`,
which is in no list, and the other areas in use are as they were. -/
structure Merging (h h' : State σ) (L L' : Layout) (a t : ℕ) (c : ℕ × ℕ) (u v : List ℕ) :
    Prop where
  rep : HeapRep h' L' {t}
  run : c ∈ L'.runs
  tags : L'.tags c.1 = u ++ t :: v
  not_inList : ¬ h'.InList t
  rest : Live h' L' \ {t} = Live h L \ {a}
  same : SameIn (Live h L \ {a}) h h'
  whole : ∀ i, wholeCount h' L' i = wholeCount h L i
  complete : h'.completePages = h.completePages
  initialized : h'.initialized = h.initialized
  pages : h'.pages = h.pages
  runs : L'.runs = L.runs
  sub : ∀ x, L'.IsTag x → L.IsTag x ∧ (h'.InList x → h.InList x)

theorem Merging.isTag {L' : Layout} (hM : Merging h h' L L' a t c u v) : L'.IsTag t :=
  Layout.isTag_of_mem hM.run hM.tags (by simp)

/-- At first it is what it is. -/
theorem merging_self (hR : HeapRep h L ∅) (ha : a ∈ Live h L) (hc : c ∈ L.runs)
    (htags : L.tags c.1 = u ++ a :: v) : Merging h h L L a a c u v :=
  ⟨hR.weaken fun _ hx ↦ absurd hx (Set.notMem_empty _), hc, htags, ha.2, rfl, .refl _ h,
    fun _ ↦ rfl, rfl, rfl, rfl, rfl, fun _ hx ↦ ⟨hx, id⟩⟩

/-- An area is joined with one beside it that is taken out of its list: `k` is the tag that stays
and `g` the one that goes. -/
theorem Merging.join {L₁ : Layout} {h₁ h₂ : State σ} {k g n : ℕ} {p q w : List ℕ}
    (hM : Merging h h₁ L L₁ a t c u v) (htags : L₁.tags c.1 = l ++ k :: g :: w)
    (hn : n = k ∧ t = g ∨ t = k ∧ n = g) (hlist : L₁.lists i = p ++ n :: q)
    (hright : h₁.tag g .splitRight = r)
    (hjoined : Joined (removeTag n h₁) h₂ L₁.tagSet k g r)
    (hfree : h₂.freePages = (removeTag n h₁).freePages)
    (hmem : ∀ x, OutsideTags L₁.tagSet x → h₂.mem x = h₁.mem x)
    (hcomplete : h₂.completePages = h₁.completePages) (hinit : h₂.initialized = h₁.initialized)
    (hpages : h₂.pages = h₁.pages) : ∃ L₂, Merging h h₂ L L₂ a k c l w := by
  have hR := hM.rep
  have hrem := hR.toListed.removable hlist
  have hnt : n ≠ t := fun heq ↦ hM.not_inList (heq ▸ hrem.inList)
  have htags' : L₁.tags c.1 = (l ++ [k]) ++ g :: w := by rw [htags, List.append_assoc]; rfl
  have hkT : L₁.IsTag k := Layout.isTag_of_mem hM.run htags (by simp)
  have hgT : L₁.IsTag g := Layout.isTag_of_mem hM.run htags (by simp)
  have hkeep : ∀ x, L₁.IsTag x → ∀ f, f ≠ .next → f ≠ .prev → f ≠ .index →
      (removeTag n h₁).tag x f = h₁.tag x f := fun x hx f h1 h2 h3 ↦ by
    rw [hR.tag_remove hlist hx]
    simp [h1, h2, h3]
  have hin₁ : ∀ x, L₁.IsTag x → ((removeTag n h₁).InList x ↔ h₁.InList x ∧ x ≠ n) := fun x hx ↦
    inList_removeTag hR hlist hx
  have hk : ¬ (removeTag n h₁).InList k := by
    rw [hin₁ k hkT]
    rcases hn with ⟨rfl, -⟩ | ⟨rfl, -⟩
    · exact fun hand ↦ hand.2 rfl
    · exact fun hand ↦ hM.not_inList hand.1
  have hg : ¬ (removeTag n h₁).InList g := by
    rw [hin₁ g hgT]
    rcases hn with ⟨-, rfl⟩ | ⟨-, rfl⟩
    · exact fun hand ↦ hM.not_inList hand.1
    · exact fun hand ↦ hand.2 rfl
  have hkX : k ∈ insert n ({t} : Set ℕ) := by
    rcases hn with ⟨rfl, -⟩ | ⟨rfl, -⟩
    · exact .inl rfl
    · exact .inr rfl
  have hR₁ := hR.remove hlist
  have hright₁ : (removeTag n h₁).tag g .splitRight = r := by
    rw [hkeep g hgT _ (by simp) (by simp) (by simp), hright]
  have hR₂ := hR₁.join hM.run htags hkX hk hg hright₁ hfree hjoined
  have heq : l ++ k :: w = (l ++ [k]) ++ w := by rw [List.append_assoc]; rfl
  have hisTag : ∀ x, ((L₁.setList i (p ++ q)).setTags c.1 (l ++ k :: w)).IsTag x ↔
      L₁.IsTag x ∧ x ≠ g := fun x ↦ by
    rw [heq]
    exact hR₁.isTag_remove hM.run htags'
  have hindex : ∀ x, L₁.IsTag x → ∀ f, f = .index ∨ f = .size →
      h₂.tag x f = (removeTag n h₁).tag x f := fun x hx f hf ↦ by
    rw [hjoined x hx]
    rcases hf with rfl | rfl <;> simp
  have hin₂ : ∀ x, L₁.IsTag x → (h₂.InList x ↔ h₁.InList x ∧ x ≠ n) := fun x hx ↦ by
    rw [← hin₁ x hx, State.InList, hindex x hx _ (.inl rfl), State.InList]
  have hlive : Live h₂ ((L₁.setList i (p ++ q)).setTags c.1 (l ++ k :: w)) \ {k} =
      Live h₁ L₁ \ {t} := by
    ext x
    show (_ ∧ ¬ h₂.InList x) ∧ x ≠ k ↔ (L₁.IsTag x ∧ ¬ h₁.InList x) ∧ x ≠ t
    rw [hisTag]
    constructor
    · rintro ⟨⟨⟨hx, hxg⟩, hno⟩, hxk⟩
      rw [hin₂ x hx] at hno
      have hxn : x ≠ n := by
        rcases hn with ⟨rfl, -⟩ | ⟨-, rfl⟩
        · exact hxk
        · exact hxg
      refine ⟨⟨hx, fun hin ↦ hno ⟨hin, hxn⟩⟩, ?_⟩
      rcases hn with ⟨-, rfl⟩ | ⟨rfl, -⟩
      · exact hxg
      · exact hxk
    · rintro ⟨⟨hx, hno⟩, hxt⟩
      have hxn : x ≠ n := fun heq ↦ hno (heq ▸ hrem.inList)
      rw [hin₂ x hx]
      rcases hn with ⟨rfl, rfl⟩ | ⟨rfl, rfl⟩
      · exact ⟨⟨⟨hx, hxt⟩, fun hand ↦ hno hand.1⟩, hxn⟩
      · exact ⟨⟨⟨hx, hxn⟩, fun hand ↦ hno hand.1⟩, hxt⟩
  have hnotwhole : ¬ h₁.Whole n := by
    have hk0 := (hR.bounds hkT).1
    have hg0 := (hR.bounds hgT).1
    rintro ⟨hleft, hright'⟩
    rcases hn with ⟨rfl, -⟩ | ⟨-, rfl⟩
    · have hbeside := (hR.beside hM.run htags).2
      rw [hright', List.headD_cons] at hbeside
      omega
    · have hbeside := (hR.beside hM.run htags').1
      rw [hleft, getLastD_append] at hbeside
      have hlast : [k].getLastD (l.getLastD 0) = k := rfl
      omega
  refine ⟨_, hR₂.weaken fun x hx hxT ↦ ?_, hM.run, setTags_self, ?_, ?_, ?_, fun j ↦ ?_,
    hcomplete.trans hM.complete, hinit.trans hM.initialized, hpages.trans hM.pages, hM.runs,
    fun x hxT ↦ ?_⟩
  · have hxg := ((hisTag x).mp hxT).2
    have hxnt : x = n ∨ x = t := hx
    show x = k
    rcases hn with ⟨rfl, rfl⟩ | ⟨rfl, rfl⟩
    · exact hxnt.resolve_right hxg
    · exact hxnt.resolve_left hxg
  · rw [State.InList, hindex k hkT _ (.inl rfl)]
    exact hk
  · rw [hlive, hM.rest]
  · refine hM.same.trans ?_
    rw [← hM.rest]
    refine hR.sameIn (fun b hb ↦ hb) (fun b hb ↦ ?_) hmem
    rw [hindex b hb.1.1 _ (.inr rfl), hkeep b hb.1.1 _ (by simp) (by simp) (by simp)]
  · have hjoin : wholeCount h₂ ((L₁.setList i (p ++ q)).setTags c.1 (l ++ k :: w)) j = _ :=
      wholeCount_join hR₁ hM.run htags hk hright₁ hjoined rfl j
    rw [hjoin]
    have hcount := wholeCount_remove hR hlist j
    rw [if_neg fun hand ↦ hnotwhole hand.2, Nat.add_zero] at hcount
    rw [hcount, hM.whole]
  · obtain ⟨hx, -⟩ := (hisTag x).mp hxT
    exact ⟨(hM.sub x hx).1, fun hin ↦ (hM.sub x hx).2 ((hin₂ x hx).mp hin).1⟩

/-- The list of a free area. -/
theorem Listed.exists_list (hL : Listed h L) (ha : L.IsTag a) (hin : h.InList a) :
    ∃ i u v, L.lists i = u ++ a :: v :=
  ⟨h.tag a .index, List.append_of_mem ((hL.mem_iff _ a).mpr ⟨ha, hin, rfl⟩)⟩

/-- A round of the first loop. -/
theorem Merging.meltLeft {L₁ : Layout} {h₁ : State σ} {n : ℕ}
    (hM : Merging h h₁ L L₁ a t c (u ++ [n]) v) (hn : h₁.InList n) :
    (Liballoc.meltLeft t h₁).1 = n ∧
      ∃ L₂, Merging h (removeTag n (Liballoc.meltLeft t h₁).2) L L₂ a n c u v := by
  have hR := hM.rep
  have hS := hR.separate
  have htags : L₁.tags c.1 = u ++ n :: t :: v := by
    rw [hM.tags, List.append_assoc]
    rfl
  have htT := hM.isTag
  have hnT : L₁.IsTag n := Layout.isTag_of_mem hM.run htags (by simp)
  obtain ⟨i, p, q, hlist⟩ := hR.toListed.exists_list hnT hn
  have hrem := hR.toListed.removable hlist
  obtain ⟨hleft, hright⟩ := hR.beside hM.run hM.tags
  rw [getLastD_append] at hleft
  have hl : h₁.tag t .splitLeft = n := hleft
  have hrS : TagOrNull L₁.tagSet (h₁.tag t .splitRight) := by
    rw [hright]
    exact tagOrNull_headD fun x hx ↦ Layout.isTag_of_mem hM.run hM.tags (by simp [hx])
  have hnt : n ≠ t := fun heq ↦ hM.not_inList (heq ▸ hn)
  have hsum := (hR.sum_lt hM.run htags).2
  have hmelt := fun x hx f ↦ tag_meltLeft (b := x) (f := f) hS hx hl rfl hnT hrS htT hnt hsum
  have hown : ∀ f, f ≠ .realSize → f ≠ .splitRight → f ≠ .splitLeft →
      (Liballoc.meltLeft t h₁).2.tag n f = h₁.tag n f := fun f h1 h2 h3 ↦ by
    rw [(hmelt n hnT f).2]
    simp [h1, h2, h3]
  have hprev' := hown .prev (by simp) (by simp) (by simp)
  have hnext' := hown .next (by simp) (by simp) (by simp)
  have hindex' := hown .index (by simp) (by simp) (by simp)
  have hrem' : ∀ x, L₁.IsTag x → ∀ f, _ := fun x hx f ↦
    tag_removeTag (h := (Liballoc.meltLeft t h₁).2) (b := x) (f := f) hS hrem.isTag hx
      (hprev' ▸ hrem.prevTag) (hnext' ▸ hrem.nextTag) (hprev' ▸ hrem.prev_ne)
  have hrest := rest_meltLeft t h₁
  have hrest' := rest_removeTag n (Liballoc.meltLeft t h₁).2
  refine ⟨(hmelt n hnT .size).1, hM.join htags (.inl ⟨rfl, rfl⟩) hlist rfl (fun x hx f ↦ ?_) ?_
    (fun x hx ↦ ?_) (hrest'.1.trans hrest.2.1) (hrest'.2.1.trans hrest.2.2.1)
    (hrest'.2.2.trans hrest.2.2.2)⟩
  · -- one function changes the links of the list, the other the area and the links beside it
    rw [hrem' x hx, hprev', hnext', (hmelt x hx f).2, hR.tag_remove hlist hx,
      hR.tag_remove hlist hnT, hR.tag_remove hlist htT]
    cases f <;> simp
  · rw [freePages_removeTag, hrest.1, hindex', hnext', freePages_removeTag]
  · rw [mem_removeTag hx hS hrem.isTag (hprev' ▸ hrem.prevTag) (hnext' ▸ hrem.nextTag)
      (hprev' ▸ hrem.prev_ne), mem_meltLeft hx hS htT hl hnT hrS hnt hsum]

/-- A round of the second one. -/
theorem Merging.absorbRight {L₁ : Layout} {h₁ : State σ} {n : ℕ}
    (hM : Merging h h₁ L L₁ a t c u (n :: v)) (hn : h₁.InList n) :
    ∃ L₂, Merging h (Liballoc.absorbRight t h₁) L L₂ a t c u v := by
  have hR := hM.rep
  have hS := hR.separate
  have htags' : L₁.tags c.1 = (u ++ [t]) ++ n :: v := by
    rw [hM.tags, List.append_assoc]
    rfl
  have htT := hM.isTag
  have hnT : L₁.IsTag n := Layout.isTag_of_mem hM.run hM.tags (by simp)
  obtain ⟨i, p, q, hlist⟩ := hR.toListed.exists_list hnT hn
  have hrem := hR.toListed.removable hlist
  have hr : h₁.tag t .splitRight = n := (hR.beside hM.run hM.tags).2
  have hrrS : TagOrNull L₁.tagSet (h₁.tag n .splitRight) := by
    rw [(hR.beside hM.run htags').2]
    exact tagOrNull_headD fun x hx ↦ Layout.isTag_of_mem hM.run hM.tags (by simp [hx])
  have hnt : n ≠ t := fun heq ↦ hM.not_inList (heq ▸ hn)
  have hsum := (hR.sum_lt hM.run hM.tags).2
  have hrest := rest_absorbRight t h₁
  rw [hr] at hrest
  refine hM.join hM.tags (.inr ⟨rfl, rfl⟩) hlist rfl (fun x hx f ↦ ?_) hrest.1
    (fun x hx ↦ ?_) hrest.2.1 hrest.2.2.1 hrest.2.2.2
  · rw [tag_absorbRight hS hx htT hr hnT hnt hrem.prevTag hrem.nextTag hrem.prev_ne rfl hrrS hsum,
      hR.tag_remove hlist htT, hR.tag_remove hlist hnT]
    simp
  · exact mem_absorbRight hx hS htT hr hnT hnt hrem.prevTag hrem.nextTag hrem.prev_ne hrrS

/-- **The first loop** ends after at most one round: two free areas are never side by side. -/
theorem meltLeftLoop_spec (hR : HeapRep h L ∅) (ha : a ∈ Live h L) (hc : c ∈ L.runs)
    (htags : L.tags c.1 = u ++ a :: v) {tests : ℕ} (htests : 2 ≤ tests) :
    ∃ t h₁ L₁ u₁, meltLeftLoop tests a h = some (t, h₁) ∧ Merging h h₁ L L₁ a t c u₁ v ∧
      ∀ x ∈ u₁.getLast?, ¬ h.InList x := by
  obtain ⟨tests, rfl⟩ : ∃ k, tests = k + 1 + 1 := ⟨tests - 2, by omega⟩
  have hself := merging_self hR ha hc htags
  have hleft := (hR.beside hc htags).1
  have hmem : ∀ x ∈ u, L.IsTag x := fun x hx ↦ Layout.isTag_of_mem hc htags (by simp [hx])
  rw [meltLeftLoop]
  by_cases hcond : h.tag a .splitLeft ≠ 0 ∧ h.InList (h.tag a .splitLeft)
  · rw [if_pos hcond]
    rcases List.eq_nil_or_concat u with rfl | ⟨u, n, rfl⟩
    · exact absurd hleft hcond.1
    · rw [List.concat_eq_append] at htags hself hleft hmem
      have hn : h.tag a .splitLeft = n := by rw [hleft, getLastD_append]; rfl
      rw [hn] at hcond
      obtain ⟨hfst, L₂, hM⟩ := hself.meltLeft hcond.2
      have htags' : L.tags c.1 = u ++ n :: a :: v := by rw [htags, List.append_assoc]; rfl
      have hbeside := (hR.beside_free hc htags' hcond.2).1
      have hleft' := (hM.rep.beside hM.run hM.tags).1
      have hstop : ¬((removeTag n (meltLeft a h).2).tag n .splitLeft ≠ 0 ∧
          (removeTag n (meltLeft a h).2).InList
            ((removeTag n (meltLeft a h).2).tag n .splitLeft)) := by
        rintro ⟨h0, hin⟩
        rw [hleft'] at h0 hin
        rcases List.eq_nil_or_concat u with rfl | ⟨u, m, rfl⟩
        · exact h0 rfl
        · rw [List.concat_eq_append] at hin hbeside hM
          rw [getLastD_append] at hin
          have hm : L₂.IsTag m := Layout.isTag_of_mem hM.run hM.tags (by simp)
          exact hbeside m (by simp) ((hM.sub m hm).2 hin)
      refine ⟨n, _, L₂, u, ?_, hM, hbeside⟩
      show meltLeftLoop (tests + 1) (meltLeft a h).1
        (removeTag (meltLeft a h).1 (meltLeft a h).2) = _
      rw [hfst, meltLeftLoop, if_neg hstop]
  · rw [if_neg hcond]
    refine ⟨a, h, L, u, rfl, hself, fun x hx hin ↦ hcond ?_⟩
    have hxu := List.mem_of_mem_getLast? hx
    have hx' : u.getLastD 0 = x := by rw [List.getLastD_eq_getLast?, hx]; rfl
    rw [hleft, hx']
    exact ⟨(hR.bounds (hmem x hxu)).1.ne', hin⟩

/-- **The second loop**, too. -/
theorem absorbRightLoop_spec (hR : HeapRep h L ∅) {L₁ : Layout} {h₁ : State σ} {w : List ℕ}
    (hM : Merging h h₁ L L₁ a t c u v) (hc : c ∈ L.runs) (htags : L.tags c.1 = w ++ v)
    {tests : ℕ} (htests : 2 ≤ tests) :
    ∃ h₂ L₂ v₂, absorbRightLoop t tests h₁ = some h₂ ∧ Merging h h₂ L L₂ a t c u v₂ ∧
      ∀ x ∈ v₂.head?, ¬ h₂.InList x := by
  obtain ⟨tests, rfl⟩ : ∃ k, tests = k + 1 + 1 := ⟨tests - 2, by omega⟩
  have hright := (hM.rep.beside hM.run hM.tags).2
  rw [absorbRightLoop]
  by_cases hcond : h₁.tag t .splitRight ≠ 0 ∧ h₁.InList (h₁.tag t .splitRight)
  · rw [if_pos hcond]
    cases v with
    | nil => exact absurd hright hcond.1
    | cons n v =>
      have hn : h₁.tag t .splitRight = n := hright
      rw [hn] at hcond
      have hnT : L₁.IsTag n := Layout.isTag_of_mem hM.run hM.tags (by simp)
      obtain ⟨L₂, hM₂⟩ := hM.absorbRight hcond.2
      have hbeside := (hR.beside_free hc htags ((hM.sub n hnT).2 hcond.2)).2
      have hright' := (hM₂.rep.beside hM₂.run hM₂.tags).2
      have hend : ∀ x ∈ v.head?, ¬ (absorbRight t h₁).InList x := fun x hx hin ↦ by
        have hx' : L₂.IsTag x := Layout.isTag_of_mem hM₂.run hM₂.tags
          (by simp [List.mem_of_mem_head? hx])
        exact hbeside x hx ((hM₂.sub x hx').2 hin)
      have hstop : ¬((absorbRight t h₁).tag t .splitRight ≠ 0 ∧
          (absorbRight t h₁).InList ((absorbRight t h₁).tag t .splitRight)) := by
        rintro ⟨h0, hin⟩
        rw [hright'] at h0 hin
        cases v with
        | nil => exact h0 rfl
        | cons m v => exact hend m rfl hin
      exact ⟨_, L₂, v, by rw [absorbRightLoop, if_neg hstop], hM₂, hend⟩
  · rw [if_neg hcond]
    refine ⟨h₁, L₁, v, rfl, hM, fun x hx hin ↦ hcond ?_⟩
    have hx' : v.headD 0 = x := by rw [List.headD_eq_head?_getD, hx]; rfl
    rw [hright, hx']
    exact ⟨(hM.rep.bounds (Layout.isTag_of_mem hM.run hM.tags
      (by simp [List.mem_of_mem_head? hx]))).1.ne', hin⟩

/-- A tag that has a run for itself. -/
theorem Merging.tags_of_whole {L₁ : Layout} {h₁ : State σ} (hM : Merging h h₁ L L₁ a t c u v)
    (hw : h₁.Whole t) : L₁.tags c.1 = [t] ∧ c.1 = t ∧ h₁.tag t .realSize = 4096 * c.2 := by
  obtain ⟨hleft, hright⟩ := hw
  obtain ⟨hl, hr⟩ := hM.rep.beside hM.run hM.tags
  have hmem : ∀ x ∈ u ++ t :: v, x ≠ 0 := fun x hx ↦
    (hM.rep.bounds (Layout.isTag_of_mem hM.run hM.tags hx)).1.ne'
  have hv : v = [] := by
    cases v with
    | nil => rfl
    | cons n v => exact absurd (hr.symm.trans hright) (hmem n (by simp))
  have hu : u = [] := by
    rcases List.eq_nil_or_concat u with rfl | ⟨u, n, rfl⟩
    · rfl
    · rw [List.concat_eq_append] at hl hmem
      rw [hleft, getLastD_append] at hl
      exact absurd hl.symm (hmem n (by simp))
  have htags := hM.tags
  rw [hu, hv] at htags
  have hrow := hM.rep.row c hM.run
  rw [htags] at hrow
  obtain ⟨heq, -, hend⟩ := hrow
  exact ⟨htags, heq.symm, by
    have hend : c.1 + h₁.tag t .realSize = c.1 + 4096 * c.2 := hend
    omega⟩

/-- The area goes to the list for its size, and is counted if it is a whole run. -/
theorem Merging.insert {L₁ : Layout} {h₁ h₂ : State σ} (hC : Consistent Holds h L)
    (hM : Merging h h₁ L L₁ a t c u v) (hu : ∀ x ∈ u.getLast?, ¬ h₁.InList x)
    (hv : ∀ x ∈ v.head?, ¬ h₁.InList x) (hi : i = listIndex (room (h₁.tag t .realSize)))
    (hfull : h₁.Whole t → h₁.completePages i ≠ maxComplete)
    (hh₂ : h₂ = if h₁.Whole t then h₁.addComplete i 1 else h₁) (hfew : L.runs ≠ []) :
    ∃ L', Consistent Holds (insertTag t i h₂) L' ∧
      Live (insertTag t i h₂) L' = Live h L \ {a} ∧
      SameIn (Live h L \ {a}) h (insertTag t i h₂) := by
  have hmem : h₂.mem = h₁.mem := by
    rw [hh₂]
    split <;> rfl
  have hfree : h₂.freePages = h₁.freePages := by
    rw [hh₂]
    split <;> rfl
  have hinit : h₂.initialized = h.initialized := by
    rw [hh₂, ← hM.initialized]
    split <;> rfl
  have hpages : h₂.pages = h.pages := by
    rw [hh₂, ← hM.pages]
    split <;> rfl
  have hcomplete : ∀ j, h₂.completePages j =
      h.completePages j + if j = i ∧ h₁.Whole t then 1 else 0 := fun j ↦ by
    rw [hh₂, ← hM.complete]
    by_cases hw : h₁.Whole t
    · rw [if_pos hw]
      by_cases hj : j = i
      · simp [State.addComplete, hj, hw]
      · simp [State.addComplete, hj]
    · simp [hw]
  have htag : ∀ x f, h₂.tag x f = h₁.tag x f := tag_eq_of_mem hmem
  have hR := hM.rep.congr hfree fun x _ ↦ htag x
  have hin : ∀ x, h₂.InList x ↔ h₁.InList x := fun x ↦ by rw [State.InList, htag, State.InList]
  have hwhole : h₂.Whole t ↔ h₁.Whole t := by rw [State.Whole, htag, htag, State.Whole]
  have hI : Insertable h₂ L₁ i i t := by
    refine ⟨hM.isTag, fun h' ↦ hM.not_inList ((hin t).mp h'), ?_, ?_⟩
    · rw [if_neg (by omega), Int.toNat_natCast]
    · rw [htag]
      exact hi
  have hrep := hR.insert (fun x hx ↦ hx) hI hM.run hM.tags
    (fun x hx h' ↦ hu x hx ((hin x).mp h')) fun x hx h' ↦ hv x hx ((hin x).mp h')
  obtain ⟨hcomplete', hinit', hpages'⟩ := rest_insertTag t i h₂
  have hcount : ∀ j, (insertTag t i h₂).completePages j =
      wholeCount (insertTag t i h₂) (L₁.setList i (t :: L₁.lists i)) j := fun j ↦ by
    rw [hcomplete', hcomplete, wholeCount_insert hR hI, wholeCount_mem hmem, hM.whole, hC.counted]
    by_cases hand : j = i ∧ h₁.Whole t
    · rw [if_pos hand, if_pos ⟨hand.1, hwhole.mpr hand.2⟩]
      rfl
    · rw [if_neg hand, if_neg fun hand' ↦ hand ⟨hand'.1, hwhole.mp hand'.2⟩]
      rfl
  refine ⟨_, ⟨hrep, hcount, fun j ↦ ?_, ?_, fun hno ↦ ?_⟩, ?_, ?_⟩
  · have hle := hC.few j
    rw [hcomplete', hcomplete]
    split_ifs with hand
    · have hne := hfull hand.2
      rw [hM.complete, ← hand.1] at hne
      omega
    · omega
  · rw [hpages', hpages]
    show Holds h.pages L₁.runs
    rw [hM.runs]
    exact hC.holds
  · rw [hinit', hinit] at hno
    exact absurd (hC.initialized hno) hfew
  · rw [← hM.rest]
    ext x
    show L₁.IsTag x ∧ _ ↔ (L₁.IsTag x ∧ ¬ h₁.InList x) ∧ x ≠ t
    constructor
    · rintro ⟨hx, hno⟩
      rw [inList_insertTag hR hI hx, hin] at hno
      exact ⟨⟨hx, fun h' ↦ hno (.inl h')⟩, fun heq ↦ hno (.inr heq)⟩
    · rintro ⟨⟨hx, hno⟩, hxt⟩
      refine ⟨hx, ?_⟩
      rw [inList_insertTag hR hI hx, hin]
      exact fun hor ↦ hor.elim hno hxt
  · refine (hM.same.trans (sameIn_congr hmem)).trans ?_
    rw [← hM.rest, ← live_congr (L := L₁) hmem]
    refine hR.sameIn (fun b hb ↦ hb) (fun b hb ↦ ?_) fun x hx ↦
      mem_insertTag hx hI.isTag hI.index_eq (hR.frontTag i)
    rw [hR.tag_insert hI hb.1.1]
    simp

/-- **What becomes of the area in the end.** -/
theorem giveBack_spec {L₁ : Layout} {h₁ : State σ} (hsound : source.Sound Holds)
    (hC : Consistent Holds h L) (hM : Merging h h₁ L L₁ a t c u v)
    (hu : ∀ x ∈ u.getLast?, ¬ h₁.InList x) (hv : ∀ x ∈ v.head?, ¬ h₁.InList x) :
    ∃ h' L', giveBack source t h₁ = some h' ∧ Consistent Holds h' L' ∧
      Live h' L' = Live h L \ {a} ∧ SameIn (Live h L \ {a}) h h' := by
  have hruns : c ∈ L.runs := hM.runs ▸ hM.run
  have hne : L.runs ≠ [] := List.ne_nil_of_mem hruns
  obtain ⟨i, hi⟩ : ∃ i, i = listIndex (room (h₁.tag t .realSize)) := ⟨_, rfl⟩
  rw [giveBack, ← hi]
  by_cases hw : h₁.Whole t
  · by_cases hfull : h₁.completePages i = maxComplete
    · obtain ⟨htags, hbase, hreal⟩ := hM.tags_of_whole hw
      have hpages : pagesFor (h₁.tag t .realSize) = c.2 := by
        rw [hreal]
        exact pagesFor_mul (hM.rep.run c hM.run).2.1
      obtain ⟨rest, hfree, hholds⟩ := hsound.free hC.holds hruns
      have hcall : source.free t c.2 h₁.pages = some rest := by
        rw [hM.pages, ← hbase]
        exact hfree
      have hmem : ({ h₁ with pages := rest } : State σ).mem = h₁.mem := rfl
      refine ⟨{ h₁ with pages := rest }, L₁.dropRun c, ?_, ⟨hM.rep.dropRun hM.run htags
        hM.not_inList rfl hmem, fun j ↦ ?_, fun j ↦ ?_, ?_, fun hno ↦ ?_⟩, ?_,
        hM.same.trans (sameIn_congr hmem)⟩
      · simp only [hw, hfull, if_true, hpages, hcall]
      · have hlists : wholeCount { h₁ with pages := rest } (L₁.dropRun c) j = wholeCount h₁ L₁ j :=
          wholeCount_mem (L := L₁) hmem j
        rw [hlists, hM.whole, ← hC.counted]
        exact congrFun hM.complete j
      · show h₁.completePages j ≤ maxComplete
        rw [hM.complete]
        exact hC.few j
      · show Holds rest (L₁.runs.erase c)
        rw [hM.runs]
        exact hholds
      · exact absurd (hC.initialized (hM.initialized.symm.trans hno)) hne
      · rw [live_congr hmem, ← hM.rest]
        ext x
        show (L₁.dropRun c).IsTag x ∧ _ ↔ (L₁.IsTag x ∧ _) ∧ x ≠ t
        rw [hM.rep.toTiled.isTag_dropRun hM.run htags]
        tauto
    · obtain ⟨L', hC', hlive, hsame⟩ := hM.insert hC hu hv hi (fun _ ↦ hfull) rfl hne
      rw [if_pos hw] at hC' hlive hsame
      exact ⟨_, L', by simp only [hw, hfull, if_true, if_false], hC', hlive, hsame⟩
  · obtain ⟨L', hC', hlive, hsame⟩ := hM.insert hC hu hv hi (fun hw' ↦ absurd hw' hw) rfl hne
    rw [if_neg hw] at hC' hlive hsame
    exact ⟨_, L', by simp only [hw, if_false], hC', hlive, hsame⟩

/-- **`free`**, of the address of an area in use: it is not in use any more, and the others stay as
they are. -/
theorem free_spec (hsound : source.Sound Holds) (hC : Consistent Holds h L) (ha : a ∈ Live h L)
    {tests : ℕ} (htests : 2 ≤ tests) :
    ∃ h' L', free source tests (a + 48) h = some h' ∧ Consistent Holds h' L' ∧
      Live h' L' = Live h L \ {a} ∧ SameIn (Live h L \ {a}) h h' := by
  obtain ⟨c, hc, hac⟩ := ha.1
  obtain ⟨u, v, htags⟩ := List.append_of_mem hac
  obtain ⟨t, h₁, L₁, u₁, hleft, hM, hu⟩ := meltLeftLoop_spec hC.rep ha hc htags htests
  have htags' : L.tags c.1 = (u ++ [a]) ++ v := by rw [htags, List.append_assoc]; rfl
  obtain ⟨h₂, L₂, v₂, hright, hM₂, hv⟩ := absorbRightLoop_spec hC.rep hM hc htags' htests
  have hu₂ : ∀ x ∈ u₁.getLast?, ¬ h₂.InList x := fun x hx hin ↦
    hu x hx ((hM₂.sub x (Layout.isTag_of_mem hM₂.run hM₂.tags
      (by simp [List.mem_of_mem_getLast? hx]))).2 hin)
  obtain ⟨h', L', hgive, hC', hlive, hsame⟩ := giveBack_spec hsound hC hM₂ hu₂ hv
  refine ⟨h', L', ?_, hC', hlive, hsame⟩
  have hmagic : ¬(h.tag a .magic ≠ liballocMagic) := not_not.mpr (hC.rep.magic a ha.1)
  rw [free, if_neg (by omega)]
  simp only [Nat.add_sub_cancel, hmagic, if_false, hleft, hright, hgive]

end Liballoc
end Borrrdex
