import Borrrdex.Kstd.Memcpy
import Borrrdex.Lib.StoredRecords

/-!
# The boundary tags of the kernel's `malloc`

`liballoc.c` cuts the runs of pages it gets into areas, each with a `boundary_tag` at its front.
The tags of a run are linked in the order of their addresses, `split_left` and `split_right`, and
those of the areas that are free are also in one of the lists `l_freePages`, by size, linked by
`next` and `prev`; `index` says in which one, or is `-1`.

The functions here are the ones that work on single tags.  Each comes with what it leaves in every
field of every tag of a set of tags that do not overlap: nothing after this looks at the bytes of a
tag any more.
-/

set_option autoImplicit false

universe u

namespace Borrrdex
namespace Liballoc

open StoredRecords

/-! ## The code -/

/-- The fields of `boundary_tag`. -/
inductive TagField
  | magic
  | size
  | realSize
  | index
  | splitLeft
  | splitRight
  | next
  | prev
  deriving DecidableEq

/-- `struct boundary_tag`: four words of four bytes, and four pointers, 48 bytes together. -/
def boundaryTag : Fields TagField where
  offset
    | .magic => 0
    | .size => 4
    | .realSize => 8
    | .index => 12
    | .splitLeft => 16
    | .splitRight => 24
    | .next => 32
    | .prev => 40
  width
    | .magic | .size | .realSize | .index => 4
    | .splitLeft | .splitRight | .next | .prev => 8
  size := 48
  inside f := by cases f <;> decide
  apart f g := by cases f <;> cases g <;> decide

/-- `LIBALLOC_MAGIC`. -/
def liballocMagic : ℕ := 0xC001C0DE

/-- `MINEXP`. -/
def minExp : ℕ := 8

/-- `MAXEXP`. -/
def maxExp : ℕ := 32

/-- `l_pageSize`. -/
def pageSize : ℕ := 4096

/-- What is in the `index` of a tag that is in no list: `-1`, as four bytes. -/
def noIndex : ℕ := 2 ^ 32 - 1

/-- The allocator's variables, the memory, and what its pages come from. -/
structure State (σ : Type u) where
  /-- `l_freePages`, addresses of tags or null. -/
  freePages : ℕ → ℕ
  /-- `l_completePages`. -/
  completePages : ℕ → ℤ
  /-- `l_initialized`. -/
  initialized : Bool
  /-- The memory. -/
  mem : ByteMem
  /-- What `liballoc_alloc` and `liballoc_free` know. -/
  pages : σ

variable {σ : Type u}

/-- `tag->field`. -/
def State.tag (h : State σ) (a : ℕ) (f : TagField) : ℕ := boundaryTag.get h.mem a f

/-- `tag->field = v`. -/
def State.setTag (h : State σ) (a : ℕ) (f : TagField) (v : ℕ) : State σ :=
  { h with mem := boundaryTag.set a f v h.mem }

/-- `l_freePages[i] = a`. -/
def State.setFreePages (h : State σ) (i a : ℕ) : State σ :=
  { h with freePages := Function.update h.freePages i a }

/-- `tag->index >= 0`. -/
def State.InList (h : State σ) (a : ℕ) : Prop := h.tag a .index < 2 ^ 31

instance (h : State σ) (a : ℕ) : Decidable (h.InList a) := Nat.decLt _ _

/-- The loop of `getexp`, with so many rounds left: `1<<31`, which is compared as an `unsigned int`,
is `2 ^ 31`. -/
def getexpLoop (size : ℕ) : ℕ → ℕ → ℕ
  | 0, shift => shift
  | rounds + 1, shift => if size < 2 ^ shift then shift else getexpLoop size rounds (shift + 1)

/-- `getexp`, of an `unsigned int`. -/
def getexp (size : ℕ) : ℤ :=
  if size < 2 ^ minExp then -1 else getexpLoop size (maxExp - minExp) minExp - 1

/-- `tag->real_size - sizeof(struct boundary_tag)`, as an argument of `getexp`. -/
def room (realSize : ℕ) : ℕ := (realSize + 2 ^ 32 - 48) % 2 ^ 32

/-- `getexp(..)`, and `MINEXP` if it is less. -/
def listIndex (size : ℕ) : ℕ := if getexp size < minExp then minExp else (getexp size).toNat

/-- `insert_tag`. -/
def insertTag (tag : ℕ) (index : ℤ) (h : State σ) : State σ :=
  let realIndex := if index < 0 then listIndex (room (h.tag tag .realSize)) else index.toNat
  let h := h.setTag tag .index realIndex
  let h :=
    if h.freePages realIndex ≠ 0 then
      (h.setTag (h.freePages realIndex) .prev tag).setTag tag .next (h.freePages realIndex)
    else h
  h.setFreePages realIndex tag

/-- `remove_tag`. -/
def removeTag (tag : ℕ) (h : State σ) : State σ :=
  let h :=
    if h.freePages (h.tag tag .index) = tag then
      h.setFreePages (h.tag tag .index) (h.tag tag .next)
    else h
  let h := if h.tag tag .prev ≠ 0 then h.setTag (h.tag tag .prev) .next (h.tag tag .next) else h
  let h := if h.tag tag .next ≠ 0 then h.setTag (h.tag tag .next) .prev (h.tag tag .prev) else h
  ((h.setTag tag .next 0).setTag tag .prev 0).setTag tag .index noIndex

/-- `melt_left`: the tag that is returned is the one on the left. -/
def meltLeft (tag : ℕ) (h : State σ) : ℕ × State σ :=
  let left := h.tag tag .splitLeft
  let h := h.setTag left .realSize (h.tag left .realSize + h.tag tag .realSize)
  let h := h.setTag left .splitRight (h.tag tag .splitRight)
  (left,
    if h.tag tag .splitRight ≠ 0 then h.setTag (h.tag tag .splitRight) .splitLeft left else h)

/-- `absorb_right`: the tag that is returned is the one it was called for. -/
def absorbRight (tag : ℕ) (h : State σ) : State σ :=
  let right := h.tag tag .splitRight
  let h := removeTag right h
  let h := h.setTag tag .realSize (h.tag tag .realSize + h.tag right .realSize)
  let h := h.setTag tag .splitRight (h.tag right .splitRight)
  if h.tag right .splitRight ≠ 0 then h.setTag (h.tag right .splitRight) .splitLeft tag else h

/-- What `split_tag` assigns to the fields of the new tag. -/
def fillNewTag (tag newTag remainder : ℕ) (h : State σ) : State σ :=
  let h := h.setTag newTag .magic liballocMagic
  let h := h.setTag newTag .realSize remainder
  let h := h.setTag newTag .next 0
  let h := h.setTag newTag .prev 0
  let h := h.setTag newTag .splitLeft tag
  h.setTag newTag .splitRight (h.tag tag .splitRight)

/-- What it assigns to the fields of the tags beside it. -/
def linkNewTag (tag newTag : ℕ) (h : State σ) : State σ :=
  let h :=
    if h.tag newTag .splitRight ≠ 0 then h.setTag (h.tag newTag .splitRight) .splitLeft newTag
    else h
  let h := h.setTag tag .splitRight newTag
  h.setTag tag .realSize (h.tag tag .realSize + 2 ^ 32 - h.tag newTag .realSize)

/-- `split_tag`. -/
def splitTag (tag : ℕ) (h : State σ) : State σ :=
  let remainder := (h.tag tag .realSize + 2 ^ 33 - 48 - h.tag tag .size) % 2 ^ 32
  let newTag := tag + 48 + h.tag tag .size
  insertTag newTag (-1) (linkNewTag tag newTag (fillNewTag tag newTag remainder h))

/-! ## Tags that do not overlap -/

/-- Addresses of tags: none of them is null, and the tags do not overlap. -/
structure Separate (S : Set ℕ) : Prop where
  pos : ∀ a ∈ S, 0 < a
  below : ∀ a ∈ S, a + 48 ≤ 2 ^ 64
  apart : ∀ a ∈ S, ∀ b ∈ S, a = b ∨ a + 48 ≤ b ∨ b + 48 ≤ a

/-- The byte is not one of a tag. -/
def OutsideTags (S : Set ℕ) (x : ℕ) : Prop := ∀ a ∈ S, x < a ∨ a + 48 ≤ x

/-- An address of one of the tags, or null. -/
def TagOrNull (S : Set ℕ) (a : ℕ) : Prop := a ≠ 0 → a ∈ S

variable {h : State σ} {S : Set ℕ} {a b i p v x : ℕ} {f g : TagField}

theorem TagOrNull.lt (hp : TagOrNull S p) (hS : Separate S) : p < 2 ^ 64 := by
  by_cases h0 : p = 0
  · omega
  · have hbelow := hS.below p (hp h0)
    omega

@[simp] theorem freePages_setTag : (h.setTag a f v).freePages = h.freePages := rfl
@[simp] theorem completePages_setTag : (h.setTag a f v).completePages = h.completePages := rfl
@[simp] theorem initialized_setTag : (h.setTag a f v).initialized = h.initialized := rfl
@[simp] theorem pages_setTag : (h.setTag a f v).pages = h.pages := rfl
@[simp] theorem tag_setFreePages : (h.setFreePages i a).tag b f = h.tag b f := rfl
@[simp] theorem mem_setFreePages : (h.setFreePages i a).mem = h.mem := rfl

theorem tag_lt (h : State σ) (a : ℕ) (f : TagField) : h.tag a f < 256 ^ boundaryTag.width f :=
  boundaryTag.get_lt ..

theorem tag_setTag_mod (hS : Separate S) (ha : a ∈ S) (hb : b ∈ S) :
    (h.setTag a f v).tag b g =
      if b = a ∧ g = f then v % 256 ^ boundaryTag.width f else h.tag b g :=
  Fields.get_set (R := boundaryTag) (hS.apart b hb a ha) ..

/-- A tag is what its bytes are. -/
theorem tag_congr {h' : State σ} (hmem : ∀ x, a ≤ x → x < a + 48 → h'.mem x = h.mem x) :
    h'.tag a f = h.tag a f :=
  Fields.get_congr hmem f

-- from here on a field is what the lemmas say, not the bytes it is read from
attribute [irreducible] State.tag

/-- What is stored in a field. -/
theorem tag_setTag (hS : Separate S) (ha : a ∈ S) (hb : b ∈ S)
    (hv : v < 256 ^ boundaryTag.width f) :
    (h.setTag a f v).tag b g = if b = a ∧ g = f then v else h.tag b g := by
  rw [tag_setTag_mod hS ha hb, Nat.mod_eq_of_lt hv]

/-- The same where nothing is done for null. -/
theorem tag_ite_setTag (hS : Separate S) (hp : TagOrNull S p) (hb : b ∈ S)
    (hv : v < 256 ^ boundaryTag.width f) :
    (if p ≠ 0 then h.setTag p f v else h).tag b g = if b = p ∧ g = f then v else h.tag b g := by
  by_cases h0 : p = 0
  · have hpos := hS.pos b hb
    rw [if_neg (not_not.mpr h0), if_neg (by omega)]
  · rw [if_pos h0, tag_setTag hS (hp h0) hb hv]

theorem mem_setTag (hx : OutsideTags S x) (ha : a ∈ S) : (h.setTag a f v).mem x = h.mem x :=
  Fields.set_of_outside (hx a ha) ..

theorem mem_ite_setTag (hx : OutsideTags S x) (hp : TagOrNull S p) :
    (if p ≠ 0 then h.setTag p f v else h).mem x = h.mem x := by
  by_cases h0 : p = 0
  · rw [if_neg (not_not.mpr h0)]
  · rw [if_pos h0, mem_setTag hx (hp h0)]

/-! ## The lists by size -/

theorem getexpLoop_bounds (size rounds shift : ℕ) :
    shift ≤ getexpLoop size rounds shift ∧ getexpLoop size rounds shift ≤ shift + rounds := by
  induction rounds generalizing shift with
  | zero => exact ⟨le_rfl, le_rfl⟩
  | succ rounds ih =>
    obtain ⟨hlo, hhi⟩ := ih (shift + 1)
    rw [getexpLoop]
    split <;> omega

theorem getexp_bounds (size : ℕ) : -1 ≤ getexp size ∧ getexp size < 32 := by
  obtain ⟨hlo, hhi⟩ := getexpLoop_bounds size (maxExp - minExp) minExp
  simp only [minExp, maxExp] at hlo hhi
  simp only [getexp, minExp, maxExp]
  split_ifs <;> omega

/-- Every size has a list. -/
theorem listIndex_lt (size : ℕ) : listIndex size < 32 := by
  obtain ⟨-, hlt⟩ := getexp_bounds size
  rw [listIndex, minExp]
  split <;> omega

/-! ## What the functions on tags do -/

/-- **`remove_tag`**: its neighbours in the list are linked to each other, and it is in none. -/
theorem tag_removeTag (hS : Separate S) (ha : a ∈ S) (hb : b ∈ S)
    (hprev : TagOrNull S (h.tag a .prev)) (hnext : TagOrNull S (h.tag a .next))
    (hne : h.tag a .prev ≠ a) :
    (removeTag a h).tag b f =
      if b = a ∧ (f = .next ∨ f = .prev) then 0
      else if b = a ∧ f = .index then noIndex
      else if b = h.tag a .prev ∧ f = .next then h.tag a .next
      else if b = h.tag a .next ∧ f = .prev then h.tag a .prev
      else h.tag b f := by
  unfold removeTag
  extract_lets h₁ h₂ h₃
  have hfirst : ∀ c g, h₁.tag c g = h.tag c g := fun c g ↦ by
    simp only [h₁]
    split
    · exact tag_setFreePages
    · rfl
  have hsecond : ∀ c ∈ S, ∀ g, h₂.tag c g =
      if c = h.tag a .prev ∧ g = .next then h.tag a .next else h.tag c g := fun c hc g ↦ by
    simp only [h₂, hfirst]
    rw [tag_ite_setTag hS hprev hc (tag_lt h a .next), hfirst]
  have hown : ∀ g, h₂.tag a g = h.tag a g := fun g ↦ by
    rw [hsecond a ha, if_neg fun heq ↦ hne heq.1.symm]
  have hthird : ∀ c ∈ S, ∀ g, h₃.tag c g =
      if c = h.tag a .next ∧ g = .prev then h.tag a .prev else h₂.tag c g := fun c hc g ↦ by
    simp only [h₃, hown]
    rw [tag_ite_setTag hS hnext hc (tag_lt h a .prev)]
  have hno : noIndex < 256 ^ boundaryTag.width .index := by decide
  rw [tag_setTag hS ha hb hno, tag_setTag hS ha hb (by decide), tag_setTag hS ha hb (by decide),
    hthird b hb, hsecond b hb]
  clear_value h₁ h₂ h₃
  grind

theorem freePages_removeTag (a : ℕ) (h : State σ) :
    (removeTag a h).freePages =
      if h.freePages (h.tag a .index) = a then
        Function.update h.freePages (h.tag a .index) (h.tag a .next)
      else h.freePages := by
  unfold removeTag
  simp only [freePages_setTag]
  split_ifs <;> rfl

theorem rest_removeTag (a : ℕ) (h : State σ) :
    (removeTag a h).completePages = h.completePages ∧
      (removeTag a h).initialized = h.initialized ∧ (removeTag a h).pages = h.pages := by
  unfold removeTag
  refine ⟨?_, ?_, ?_⟩ <;>
  · simp only [completePages_setTag, initialized_setTag, pages_setTag]
    split_ifs <;> rfl

theorem mem_removeTag (hx : OutsideTags S x) (hS : Separate S) (ha : a ∈ S)
    (hprev : TagOrNull S (h.tag a .prev)) (hnext : TagOrNull S (h.tag a .next))
    (hne : h.tag a .prev ≠ a) : (removeTag a h).mem x = h.mem x := by
  unfold removeTag
  extract_lets h₁ h₂ h₃
  have hfirst : ∀ c g, h₁.tag c g = h.tag c g := fun c g ↦ by
    simp only [h₁]
    split
    · exact tag_setFreePages
    · rfl
  have hown : h₂.tag a .next = h.tag a .next := by
    simp only [h₂, hfirst]
    rw [tag_ite_setTag hS hprev ha (tag_lt h a .next), if_neg fun heq ↦ hne heq.1.symm, hfirst]
  have hmem : h₁.mem x = h.mem x := by
    simp only [h₁]
    split <;> rfl
  rw [mem_setTag hx ha, mem_setTag hx ha, mem_setTag hx ha]
  simp only [h₃, hown]
  rw [mem_ite_setTag hx hnext]
  simp only [h₂, hfirst]
  rw [mem_ite_setTag hx hprev, hmem]

/-- **`insert_tag`**: the tag is at the front of the list, and the old front is behind it. -/
theorem tag_insertTag {index : ℤ} (hS : Separate S) (ha : a ∈ S) (hb : b ∈ S)
    (hi : (if index < 0 then listIndex (room (h.tag a .realSize)) else index.toNat) = i)
    (hlt : i < 2 ^ 32) (hfront : TagOrNull S (h.freePages i)) :
    (insertTag a index h).tag b f =
      if b = a ∧ f = .index then i
      else if b = a ∧ f = .next ∧ h.freePages i ≠ 0 then h.freePages i
      else if b = h.freePages i ∧ f = .prev then a
      else h.tag b f := by
  have hbelow := hS.below a ha
  have hpos := hS.pos b hb
  have hfrontlt := hfront.lt hS
  unfold insertTag
  rw [hi]
  extract_lets realIndex h₁ h₂
  have hfirst : ∀ c ∈ S, ∀ g, h₁.tag c g = if c = a ∧ g = .index then i else h.tag c g :=
    fun c hc g ↦ tag_setTag hS ha hc (v := i) (f := .index) (by simpa [boundaryTag] using hlt)
  have hsecond : ∀ c ∈ S, ∀ g, h₂.tag c g =
      if c = a ∧ g = .next ∧ h.freePages i ≠ 0 then h.freePages i
      else if c = h.freePages i ∧ g = .prev then a else h₁.tag c g := by
    intro c hc g
    have hfree : h₁.freePages i = h.freePages i := rfl
    have hc0 := hS.pos c hc
    simp only [h₂, realIndex, hfree]
    by_cases h0 : h.freePages i = 0
    · rw [if_neg (not_not.mpr h0), if_neg (by grind), if_neg (by omega)]
    · rw [if_pos h0, tag_setTag hS ha hc (by simpa [boundaryTag] using hfrontlt),
        tag_setTag hS (hfront h0) hc (v := a) (f := .prev) (by simp [boundaryTag]; omega)]
      grind
  rw [tag_setFreePages, hsecond b hb, hfirst b hb]
  clear_value h₁ h₂
  grind

theorem freePages_insertTag {index : ℤ}
    (hi : (if index < 0 then listIndex (room (h.tag a .realSize)) else index.toNat) = i) :
    (insertTag a index h).freePages = Function.update h.freePages i a := by
  unfold insertTag
  rw [hi]
  simp only [State.setFreePages]
  split_ifs <;> rfl

theorem rest_insertTag (a : ℕ) (index : ℤ) (h : State σ) :
    (insertTag a index h).completePages = h.completePages ∧
      (insertTag a index h).initialized = h.initialized ∧
      (insertTag a index h).pages = h.pages := by
  unfold insertTag
  refine ⟨?_, ?_, ?_⟩ <;>
  · simp only [State.setFreePages]
    split_ifs <;> rfl

/-- `insert_tag` does not look at the index that was there before. -/
theorem insertTag_setTag_index {index : ℤ} (hS : Separate S) (ha : a ∈ S) :
    insertTag a index (h.setTag a .index v) = insertTag a index h := by
  have hreal : (h.setTag a .index v).tag a .realSize = h.tag a .realSize := by
    rw [tag_setTag_mod hS ha ha]
    simp
  have htwice : ∀ w, (h.setTag a .index v).setTag a .index w = h.setTag a .index w := fun w ↦ by
    simp only [State.setTag, State.mk.injEq, true_and, and_true]
    funext x
    simp only [Fields.set, store]
    split_ifs <;> rfl
  unfold insertTag
  rw [hreal]
  simp only [htwice, freePages_setTag]
  rfl

theorem mem_insertTag {index : ℤ} (hx : OutsideTags S x) (ha : a ∈ S)
    (hi : (if index < 0 then listIndex (room (h.tag a .realSize)) else index.toNat) = i)
    (hfront : TagOrNull S (h.freePages i)) : (insertTag a index h).mem x = h.mem x := by
  unfold insertTag
  rw [hi, mem_setFreePages, freePages_setTag]
  by_cases h0 : h.freePages i = 0
  · rw [if_neg (not_not.mpr h0), mem_setTag hx ha]
  · rw [if_pos h0, mem_setTag hx ha, mem_setTag hx (hfront h0), mem_setTag hx ha]

/-- **`melt_left`**: the tag on the left has the area of both, and the links of the other one. -/
theorem tag_meltLeft {l r : ℕ} (hS : Separate S) (hb : b ∈ S) (hl : h.tag a .splitLeft = l)
    (hr : h.tag a .splitRight = r) (hlS : l ∈ S) (hrS : TagOrNull S r) (ha : a ∈ S) (hla : l ≠ a)
    (hsum : h.tag l .realSize + h.tag a .realSize < 2 ^ 32) :
    (meltLeft a h).1 = l ∧
    (meltLeft a h).2.tag b f =
      if b = l ∧ f = .realSize then h.tag l .realSize + h.tag a .realSize
      else if b = l ∧ f = .splitRight then r
      else if b = r ∧ f = .splitLeft then l
      else h.tag b f := by
  have hbelow := hS.below l hlS
  unfold meltLeft
  rw [hl]
  extract_lets left h₁ h₂
  have hfirst : ∀ c ∈ S, ∀ g, h₁.tag c g =
      if c = l ∧ g = .realSize then h.tag l .realSize + h.tag a .realSize else h.tag c g :=
    fun c hc g ↦ tag_setTag hS hlS hc (f := .realSize) hsum
  have hright : h₁.tag a .splitRight = r := by
    rw [hfirst a ha, if_neg (by simp), hr]
  have hsecond : ∀ c ∈ S, ∀ g, h₂.tag c g =
      if c = l ∧ g = .splitRight then r else h₁.tag c g := fun c hc g ↦ by
    simp only [h₂, left, hright]
    exact tag_setTag hS hlS hc (f := .splitRight) (hrS.lt hS)
  have hown : h₂.tag a .splitRight = r := by
    rw [hsecond a ha, if_neg fun heq ↦ hla heq.1.symm, hright]
  refine ⟨rfl, ?_⟩
  simp only [hown, left]
  rw [tag_ite_setTag hS hrS hb (v := l) (f := .splitLeft) (by simp [boundaryTag]; omega),
    hsecond b hb, hfirst b hb]
  clear_value h₁ h₂
  grind

theorem rest_meltLeft (a : ℕ) (h : State σ) :
    (meltLeft a h).2.freePages = h.freePages ∧
      (meltLeft a h).2.completePages = h.completePages ∧
      (meltLeft a h).2.initialized = h.initialized ∧ (meltLeft a h).2.pages = h.pages := by
  unfold meltLeft
  extract_lets left h₁ h₂
  by_cases h0 : h₂.tag a .splitRight = 0
  · simp [h0, h₂, h₁]
  · simp [h0, h₂, h₁]

theorem mem_meltLeft {l : ℕ} (hx : OutsideTags S x) (hS : Separate S) (ha : a ∈ S)
    (hl : h.tag a .splitLeft = l) (hlS : l ∈ S) (hr : TagOrNull S (h.tag a .splitRight))
    (hla : l ≠ a) (hsum : h.tag l .realSize + h.tag a .realSize < 2 ^ 32) :
    (meltLeft a h).2.mem x = h.mem x := by
  unfold meltLeft
  rw [hl]
  extract_lets left h₁ h₂
  have hfirst : h₁.tag a .splitRight = h.tag a .splitRight := by
    simp only [h₁, left]
    rw [tag_setTag hS hlS ha (f := .realSize) hsum, if_neg (by simp)]
  have hown : h₂.tag a .splitRight = h.tag a .splitRight := by
    simp only [h₂, left, hfirst]
    rw [tag_setTag hS hlS ha (tag_lt h a .splitRight), if_neg fun heq ↦ hla heq.1.symm, hfirst]
  simp only [hown]
  rw [mem_ite_setTag hx hr]
  simp only [h₂, h₁, left]
  rw [mem_setTag hx hlS, mem_setTag hx hlS]

/-- **`absorb_right`**: the tag on the right is taken from its list, and the tag has the area of
both. -/
theorem tag_absorbRight {r rr : ℕ} (hS : Separate S) (hb : b ∈ S) (ha : a ∈ S)
    (hr : h.tag a .splitRight = r) (hrS : r ∈ S) (hra : r ≠ a)
    (hprev : TagOrNull S (h.tag r .prev)) (hnext : TagOrNull S (h.tag r .next))
    (hne : h.tag r .prev ≠ r) (hrr : h.tag r .splitRight = rr) (hrrS : TagOrNull S rr)
    (hsum : h.tag a .realSize + h.tag r .realSize < 2 ^ 32) :
    (absorbRight a h).tag b f =
      if b = a ∧ f = .realSize then h.tag a .realSize + h.tag r .realSize
      else if b = a ∧ f = .splitRight then rr
      else if b = rr ∧ f = .splitLeft then a
      else (removeTag r h).tag b f := by
  have hbelow := hS.below a ha
  have hkeep : ∀ c ∈ S, ∀ g, g ≠ .next → g ≠ .prev → g ≠ .index →
      (removeTag r h).tag c g = h.tag c g := fun c hc g h1 h2 h3 ↦ by
    rw [tag_removeTag hS hrS hc hprev hnext hne]
    simp [h1, h2, h3]
  unfold absorbRight
  rw [hr]
  extract_lets right h₁ h₂ h₃
  have hfirst : ∀ c g, h₁.tag c g = (removeTag r h).tag c g := fun _ _ ↦ rfl
  have hsecond : ∀ c ∈ S, ∀ g, h₂.tag c g =
      if c = a ∧ g = .realSize then h.tag a .realSize + h.tag r .realSize
      else (removeTag r h).tag c g := fun c hc g ↦ by
    simp only [h₂, right, hfirst]
    rw [hkeep a ha .realSize (by simp) (by simp) (by simp),
      hkeep r hrS .realSize (by simp) (by simp) (by simp),
      tag_setTag hS ha hc (f := .realSize) hsum, hfirst]
  have hright : h₂.tag r .splitRight = rr := by
    rw [hsecond r hrS, if_neg (by simp), hkeep r hrS .splitRight (by simp) (by simp) (by simp), hrr]
  have hthird : ∀ c ∈ S, ∀ g, h₃.tag c g =
      if c = a ∧ g = .splitRight then rr else h₂.tag c g := fun c hc g ↦ by
    simp only [h₃, right, hright]
    exact tag_setTag hS ha hc (f := .splitRight) (hrrS.lt hS)
  have hown : h₃.tag r .splitRight = rr := by
    rw [hthird r hrS, if_neg fun heq ↦ hra heq.1, hright]
  simp only [hown, right]
  rw [tag_ite_setTag hS hrrS hb (v := a) (f := .splitLeft) (by simp [boundaryTag]; omega),
    hthird b hb, hsecond b hb]
  clear_value h₁ h₂ h₃
  grind

theorem rest_absorbRight (a : ℕ) (h : State σ) :
    (absorbRight a h).freePages = (removeTag (h.tag a .splitRight) h).freePages ∧
      (absorbRight a h).completePages = h.completePages ∧
      (absorbRight a h).initialized = h.initialized ∧ (absorbRight a h).pages = h.pages := by
  obtain ⟨hcomplete, hinit, hpages⟩ := rest_removeTag (h.tag a .splitRight) h
  unfold absorbRight
  extract_lets right h₁ h₂ h₃
  by_cases h0 : h₃.tag right .splitRight = 0
  · simp [h0, h₃, h₂, h₁, right, hcomplete, hinit, hpages]
  · simp [h0, h₃, h₂, h₁, right, hcomplete, hinit, hpages]

theorem mem_absorbRight {r : ℕ} (hx : OutsideTags S x) (hS : Separate S) (ha : a ∈ S)
    (hr : h.tag a .splitRight = r) (hrS : r ∈ S) (hra : r ≠ a)
    (hprev : TagOrNull S (h.tag r .prev)) (hnext : TagOrNull S (h.tag r .next))
    (hne : h.tag r .prev ≠ r) (hrr : TagOrNull S (h.tag r .splitRight)) :
    (absorbRight a h).mem x = h.mem x := by
  have hkeep : (removeTag r h).tag r .splitRight = h.tag r .splitRight := by
    rw [tag_removeTag hS hrS hrS hprev hnext hne]
    simp
  unfold absorbRight
  rw [hr]
  extract_lets right h₁ h₂ h₃
  have hsecond : h₂.tag r .splitRight = h.tag r .splitRight := by
    simp only [h₂]
    rw [tag_setTag_mod hS ha hrS, if_neg (by simp)]
    exact hkeep
  have hthird : h₃.tag r .splitRight = h.tag r .splitRight := by
    simp only [h₃, right]
    rw [tag_setTag hS ha hrS (tag_lt h₂ r .splitRight), if_neg fun heq ↦ hra heq.1, hsecond]
  simp only [right, hthird]
  rw [mem_ite_setTag hx hrr]
  simp only [h₃, h₂, h₁, right]
  rw [mem_setTag hx ha, mem_setTag hx ha, mem_removeTag hx hS hrS hprev hnext hne]

theorem tag_fillNewTag {n k r : ℕ} (hS : Separate S) (ha : a ∈ S) (hn : n ∈ S) (hna : n ≠ a)
    (hb : b ∈ S) (hk : k < 2 ^ 32) (hr : h.tag a .splitRight = r) :
    (fillNewTag a n k h).tag b f =
      if b = n ∧ f = .magic then liballocMagic
      else if b = n ∧ f = .realSize then k
      else if b = n ∧ (f = .next ∨ f = .prev) then 0
      else if b = n ∧ f = .splitLeft then a
      else if b = n ∧ f = .splitRight then r
      else h.tag b f := by
  have hbelow := hS.below a ha
  unfold fillNewTag
  extract_lets h₁ h₂ h₃ h₄ h₅
  have hfive : ∀ c ∈ S, ∀ g, h₅.tag c g =
      if c = n ∧ g = .magic then liballocMagic
      else if c = n ∧ g = .realSize then k
      else if c = n ∧ (g = .next ∨ g = .prev) then 0
      else if c = n ∧ g = .splitLeft then a
      else h.tag c g := fun c hc g ↦ by
    simp only [h₅, h₄, h₃, h₂, h₁]
    rw [tag_setTag hS hn hc (v := a) (f := .splitLeft) (by simp [boundaryTag]; omega),
      tag_setTag hS hn hc (by decide), tag_setTag hS hn hc (by decide),
      tag_setTag hS hn hc (v := k) (f := .realSize) hk, tag_setTag hS hn hc (by decide)]
    grind
  have hright : h₅.tag a .splitRight = r := by
    rw [hfive a ha]
    simp [hna.symm, hr]
  rw [hright, tag_setTag hS hn hb (hr ▸ tag_lt h a .splitRight), hfive b hb]
  clear_value h₁ h₂ h₃ h₄ h₅
  grind

theorem tag_linkNewTag {n r : ℕ} (hS : Separate S) (ha : a ∈ S) (hn : n ∈ S) (hb : b ∈ S)
    (hr : h.tag n .splitRight = r) (hrS : TagOrNull S r)
    (hle : h.tag n .realSize ≤ h.tag a .realSize) :
    (linkNewTag a n h).tag b f =
      if b = a ∧ f = .realSize then h.tag a .realSize - h.tag n .realSize
      else if b = a ∧ f = .splitRight then n
      else if b = r ∧ f = .splitLeft then n
      else h.tag b f := by
  have hbelow := hS.below n hn
  have hreal : h.tag a .realSize < 2 ^ 32 := tag_lt h a .realSize
  unfold linkNewTag
  rw [hr]
  extract_lets h₁ h₂
  have hsecond : ∀ c ∈ S, ∀ g, h₂.tag c g =
      if c = a ∧ g = .splitRight then n
      else if c = r ∧ g = .splitLeft then n
      else h.tag c g := fun c hc g ↦ by
    simp only [h₂, h₁]
    rw [tag_setTag hS ha hc (v := n) (f := .splitRight) (by simp [boundaryTag]; omega),
      tag_ite_setTag hS hrS hc (v := n) (f := .splitLeft) (by simp [boundaryTag]; omega)]
  have hreal : ∀ c ∈ S, h₂.tag c .realSize = h.tag c .realSize := fun c hc ↦ by
    rw [hsecond c hc]
    simp
  have hstored : (h.tag a .realSize + 2 ^ 32 - h.tag n .realSize) %
      256 ^ boundaryTag.width .realSize = h.tag a .realSize - h.tag n .realSize := by
    simp only [boundaryTag]
    omega
  rw [hreal a ha, hreal n hn, tag_setTag_mod hS ha hb, hstored, hsecond b hb]

theorem rest_linkNewTag (a n : ℕ) (h : State σ) :
    (linkNewTag a n h).freePages = h.freePages ∧
      (linkNewTag a n h).completePages = h.completePages ∧
      (linkNewTag a n h).initialized = h.initialized ∧ (linkNewTag a n h).pages = h.pages := by
  unfold linkNewTag
  extract_lets h₁ h₂
  by_cases h0 : h.tag n .splitRight = 0
  · simp [h₂, h₁, h0]
  · simp [h₂, h₁, h0]

theorem rest_fillNewTag (a n k : ℕ) (h : State σ) :
    (fillNewTag a n k h).freePages = h.freePages ∧
      (fillNewTag a n k h).completePages = h.completePages ∧
      (fillNewTag a n k h).initialized = h.initialized ∧ (fillNewTag a n k h).pages = h.pages := by
  simp [fillNewTag]

theorem mem_linkNewTag {n : ℕ} (hx : OutsideTags S x) (ha : a ∈ S)
    (hr : TagOrNull S (h.tag n .splitRight)) : (linkNewTag a n h).mem x = h.mem x := by
  unfold linkNewTag
  rw [mem_setTag hx ha, mem_setTag hx ha, mem_ite_setTag hx hr]

theorem mem_fillNewTag {n k : ℕ} (hx : OutsideTags S x) (hn : n ∈ S) :
    (fillNewTag a n k h).mem x = h.mem x := by
  unfold fillNewTag
  rw [mem_setTag hx hn, mem_setTag hx hn, mem_setTag hx hn, mem_setTag hx hn, mem_setTag hx hn,
    mem_setTag hx hn]

/-- **`split_tag`**: up to the call of `insert_tag` there is a new tag behind the area, which has
the rest of it. -/
theorem splitTag_eq {n r : ℕ} (hS : Separate S) (ha : a ∈ S) (hn : a + 48 + h.tag a .size = n)
    (hnS : n ∈ S) (hr : h.tag a .splitRight = r) (hrS : TagOrNull S r)
    (hroom : 48 + h.tag a .size ≤ h.tag a .realSize) :
    ∃ h' : State σ, splitTag a h = insertTag n (-1) h' ∧
      (∀ b ∈ S, ∀ f, h'.tag b f =
        if b = a ∧ f = .realSize then 48 + h.tag a .size
        else if b = a ∧ f = .splitRight then n
        else if b = r ∧ f = .splitLeft then n
        else if b = n ∧ f = .magic then liballocMagic
        else if b = n ∧ f = .realSize then h.tag a .realSize - (48 + h.tag a .size)
        else if b = n ∧ (f = .next ∨ f = .prev) then 0
        else if b = n ∧ f = .splitLeft then a
        else if b = n ∧ f = .splitRight then r
        else h.tag b f) ∧
      (∀ x, OutsideTags S x → h'.mem x = h.mem x) ∧ h'.freePages = h.freePages ∧
      h'.completePages = h.completePages ∧ h'.initialized = h.initialized ∧ h'.pages = h.pages := by
  obtain ⟨k, hk⟩ : ∃ k, k = h.tag a .realSize - (48 + h.tag a .size) := ⟨_, rfl⟩
  have hreal : h.tag a .realSize < 2 ^ 32 := tag_lt h a .realSize
  have hna : n ≠ a := by omega
  have hremainder : (h.tag a .realSize + 2 ^ 33 - 48 - h.tag a .size) % 2 ^ 32 = k := by omega
  have hfill : ∀ b ∈ S, ∀ f, _ := fun b hb f ↦
    tag_fillNewTag (f := f) (k := k) hS ha hnS hna hb (by omega) hr
  have hfillr : (fillNewTag a n k h).tag n .splitRight = r := by
    rw [hfill n hnS]
    simp
  have hfilln : (fillNewTag a n k h).tag n .realSize = k := by
    rw [hfill n hnS]
    simp
  have hfilla : (fillNewTag a n k h).tag a .realSize = h.tag a .realSize := by
    rw [hfill a ha]
    simp [hna.symm]
  have hsplit : splitTag a h = insertTag n (-1) (linkNewTag a n (fillNewTag a n k h)) := by
    rw [splitTag, hremainder, hn]
  obtain ⟨hfree, hcomplete, hinit, hpages⟩ := rest_linkNewTag a n (fillNewTag a n k h)
  obtain ⟨hfree', hcomplete', hinit', hpages'⟩ := rest_fillNewTag a n k h
  refine ⟨_, hsplit, fun b hb f ↦ ?_, fun x hx ↦ ?_, hfree.trans hfree',
    hcomplete.trans hcomplete', hinit.trans hinit', hpages.trans hpages'⟩
  · have hrest : h.tag a .realSize - k = 48 + h.tag a .size := by omega
    rw [tag_linkNewTag hS ha hnS hb hfillr hrS (by omega), hfill b hb, hfilla, hfilln, hrest, hk]
  · rw [mem_linkNewTag hx ha (hfillr ▸ hrS), mem_fillNewTag hx hnS]

end Liballoc
end Borrrdex
