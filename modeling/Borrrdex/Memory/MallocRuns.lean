import Borrrdex.Kstd.Memcpy
import Borrrdex.Lib.ArrayHeap
import Borrrdex.Memory.Malloc

/-!
# The heap is separate arrays

`calloc` and `realloc` on top of `malloc` and `free`, and runs of all four, with stores of the
kernel in between.  A run of the kernel's heap is a run of a heap of separate arrays with the same
results (`heapRun_refines`): what the tags, the lists and the pages do is not to be seen.

`malloc` keeps the bytes it needs in 32 bits, with what it adds for a tag and for the rounding to
pages, so a request from `2 ^ 32 - 4144` on would get an array that is too short.  The sizes in
`calloc` and `realloc` are `int`s.  From `2 ^ 31` on they are negative, and that many bytes as a
`size_t` are more than there is memory.  This is what `Allowed` excludes.
-/

set_option autoImplicit false

universe u

namespace Borrrdex
namespace Liballoc

open ArrayHeap (Arrays Call New)

/-! ## The code -/

/-- The loop of `liballoc_memset`, with `n` bytes left. -/
def memsetFrom (s : ℕ) (c : Byte) : ℕ → ℕ → ByteMem → ByteMem
  | 0, _, m => m
  | n + 1, i, m => memsetFrom s c n (i + 1) (Function.update m (s + i) c)

/-- `liballoc_memset`. -/
def liballocMemset (s : ℕ) (c : Byte) (n : ℕ) (m : ByteMem) : ByteMem := memsetFrom s c n 0 m

/-- `*ldest = *lsrc`, on `unsigned int`s. -/
def copyInt (d s : ℕ) (m : ByteMem) : ByteMem := fun a ↦
  if d ≤ a ∧ a < d + 4 then m (s + (a - d)) else m a

/-- The first loop of `liballoc_memcpy`. -/
def copyInts : ℕ → ℕ → ℕ → ByteMem → ByteMem
  | 0, _, _, m => m
  | n + 1, d, s, m => copyInts n (d + 4) (s + 4) (copyInt d s m)

/-- `liballoc_memcpy`. -/
def liballocMemcpy (s1 s2 n : ℕ) (m : ByteMem) : ByteMem :=
  copyBytes (n % 4) (s1 + 4 * (n / 4)) (s2 + 4 * (n / 4)) (copyInts (n / 4) s1 s2 m)

/-- A number that has been in an `int`, as a `size_t`. -/
def asInt (x : ℕ) : ℕ :=
  if x % 2 ^ 32 < 2 ^ 31 then x % 2 ^ 32 else x % 2 ^ 32 + (2 ^ 64 - 2 ^ 32)

variable {σ : Type u} (source : PageSource σ)

/-- `calloc`. -/
def calloc (fresh : ByteMem) (tests nobj size : ℕ) (h : State σ) : Option (ℕ × State σ) :=
  let realSize := asInt (nobj * size)
  match malloc source fresh tests realSize h with
  | none => none
  | some (p, h) => some (p, { h with mem := liballocMemset p 0 realSize h.mem })

/-- `realloc`. -/
def realloc (fresh : ByteMem) (tests p size : ℕ) (h : State σ) : Option (ℕ × State σ) :=
  if size = 0 then (free source tests p h).map fun h ↦ (0, h)
  else if p = 0 then malloc source fresh tests size h
  else
    let realSize := asInt (h.tag (p - 48) .size)
    let realSize := if realSize > size then asInt size else realSize
    match malloc source fresh tests size h with
    | none => none
    | some (ptr, h) =>
      let h := { h with mem := liballocMemcpy ptr p realSize h.mem }
      (free source tests p h).map fun h ↦ (ptr, h)

/-! ## Setting and copying -/

variable {source} {h h' : State σ} {L L' : Layout} {a b i n p q r size tests : ℕ} {v : Byte}
  {m : ByteMem} {w : List Byte} {A : Arrays Byte} {Holds : σ → List (ℕ × ℕ) → Prop}

theorem memsetFrom_apply (s : ℕ) (c : Byte) (n i x : ℕ) (m : ByteMem) :
    memsetFrom s c n i m x = if s + i ≤ x ∧ x < s + i + n then c else m x := by
  induction n generalizing i m with
  | zero => rw [memsetFrom, if_neg (by omega)]
  | succ n ih =>
    rw [memsetFrom, ih]
    by_cases hx : x = s + i
    · rw [if_neg (by omega), if_pos (by omega), hx, Function.update_self]
    · rw [Function.update_of_ne hx]
      exact if_congr (by omega) rfl rfl

theorem copyInts_eq_moved {n d s : ℕ} (h : Forward d s (4 * n)) (m : ByteMem) :
    copyInts n d s m = moved d s (4 * n) m := by
  induction n generalizing d s m with
  | zero => exact (moved_zero d s m).symm
  | succ n ih =>
    rw [Nat.mul_succ, Nat.add_comm] at h
    have hint : copyInt d s m = moved d s 4 m := rfl
    rw [copyInts, hint, ih h.step, moved_moved h, Nat.mul_succ, Nat.add_comm]

theorem liballocMemcpy_eq_moved {n d s : ℕ} (h : Forward d s n) (m : ByteMem) :
    liballocMemcpy d s n m = moved d s n m := by
  have hn : 4 * (n / 4) + n % 4 = n := Nat.div_add_mod n 4
  have h' : Forward d s (4 * (n / 4) + n % 4) := hn.symm ▸ h
  rw [liballocMemcpy, copyBytes_eq_moved h'.step, copyInts_eq_moved (h.mono (by omega)),
    moved_moved h', hn]

theorem asInt_of_lt {x : ℕ} (hx : x < 2 ^ 31) : asInt x = x := by
  rw [asInt, if_pos (by omega)]
  omega

theorem asInt_of_le {x : ℕ} (hx : 2 ^ 31 ≤ x) (hx' : x < 2 ^ 32) : 2 ^ 63 ≤ asInt x := by
  rw [asInt, if_neg (by omega)]
  omega

/-! ## Enough tests -/

theorem findTag_mono {tests' t : ℕ} (hle : tests ≤ tests')
    (hfind : findTag size h tests a = some t) : findTag size h tests' a = some t := by
  induction tests generalizing tests' a with
  | zero => cases hfind
  | succ tests ih =>
    obtain ⟨k, rfl⟩ : ∃ k, tests' = k + 1 := ⟨tests' - 1, by omega⟩
    rw [findTag] at hfind ⊢
    split_ifs at hfind ⊢
    · exact hfind
    · exact hfind
    · exact ih (by omega) hfind

theorem malloc_mono {tests' : ℕ} {fresh : ByteMem} {x : ℕ × State σ} (hle : tests ≤ tests')
    (hcall : malloc source fresh tests size h = some x) :
    malloc source fresh tests' size h = some x := by
  rw [malloc] at hcall ⊢
  dsimp only at hcall ⊢
  cases hfind : findTag size h.initial tests (h.initial.freePages (listIndex (size % 2 ^ 32))) with
  | none =>
    rw [hfind] at hcall
    cases hcall
  | some t =>
    rw [hfind] at hcall
    rw [findTag_mono hle hfind]
    exact hcall

theorem meltLeftLoop_mono {tests' : ℕ} {x : ℕ × State σ} (hle : tests ≤ tests')
    (hloop : meltLeftLoop tests a h = some x) : meltLeftLoop tests' a h = some x := by
  induction tests generalizing tests' a h with
  | zero => cases hloop
  | succ tests ih =>
    obtain ⟨k, rfl⟩ : ∃ k, tests' = k + 1 := ⟨tests' - 1, by omega⟩
    rw [meltLeftLoop] at hloop ⊢
    split_ifs at hloop ⊢
    · exact ih (by omega) hloop
    · exact hloop

theorem absorbRightLoop_mono {tests' : ℕ} (hle : tests ≤ tests')
    (hloop : absorbRightLoop a tests h = some h') : absorbRightLoop a tests' h = some h' := by
  induction tests generalizing tests' h with
  | zero => cases hloop
  | succ tests ih =>
    obtain ⟨k, rfl⟩ : ∃ k, tests' = k + 1 := ⟨tests' - 1, by omega⟩
    rw [absorbRightLoop] at hloop ⊢
    split_ifs at hloop ⊢
    · exact ih (by omega) hloop
    · exact hloop

theorem free_mono {tests' : ℕ} (hle : tests ≤ tests')
    (hcall : free source tests p h = some h') : free source tests' p h = some h' := by
  rw [free] at hcall ⊢
  dsimp only at hcall ⊢
  split_ifs at hcall ⊢
  · exact hcall
  · exact hcall
  · cases hleft : meltLeftLoop tests (p - 48) h with
    | none =>
      rw [hleft] at hcall
      cases hcall
    | some x =>
      rw [hleft] at hcall
      rw [meltLeftLoop_mono hle hleft]
      dsimp only at hcall ⊢
      cases hright : absorbRightLoop x.1 tests x.2 with
      | none =>
        rw [hright] at hcall
        cases hcall
      | some y =>
        rw [hright] at hcall
        rw [absorbRightLoop_mono hle hright]
        exact hcall

theorem calloc_mono {tests' parts : ℕ} {fresh : ByteMem} {x : ℕ × State σ} (hle : tests ≤ tests')
    (hcall : calloc source fresh tests parts n h = some x) :
    calloc source fresh tests' parts n h = some x := by
  rw [calloc] at hcall ⊢
  cases hmalloc : malloc source fresh tests (asInt (parts * n)) h with
  | none =>
    rw [hmalloc] at hcall
    cases hcall
  | some y =>
    rw [hmalloc] at hcall
    rw [malloc_mono hle hmalloc]
    exact hcall

theorem realloc_mono {tests' : ℕ} {fresh : ByteMem} {x : ℕ × State σ} (hle : tests ≤ tests')
    (hcall : realloc source fresh tests p n h = some x) :
    realloc source fresh tests' p n h = some x := by
  rw [realloc] at hcall ⊢
  split_ifs at hcall ⊢
  · rw [Option.map_eq_some_iff] at hcall ⊢
    obtain ⟨h₁, hfree, heq⟩ := hcall
    exact ⟨h₁, free_mono hle hfree, heq⟩
  · exact malloc_mono hle hcall
  · dsimp only at hcall ⊢
    cases hmalloc : malloc source fresh tests n h with
    | none =>
      rw [hmalloc] at hcall
      cases hcall
    | some y =>
      rw [hmalloc] at hcall
      rw [malloc_mono hle hmalloc]
      dsimp only at hcall ⊢
      rw [Option.map_eq_some_iff] at hcall ⊢
      obtain ⟨h₁, hfree, heq⟩ := hcall
      exact ⟨h₁, free_mono hle hfree, heq⟩

/-! ## The arrays in memory -/

/-- **The arrays that a program has are the areas in use**, with the bytes that are there. -/
structure Shows (Holds : σ → List (ℕ × ℕ) → Prop) (h : State σ) (L : Layout) (A : Arrays Byte) :
    Prop where
  consistent : Consistent Holds h L
  shown : ∀ p w, A p = some w ↔ ∃ a ∈ Live h L, p = a + 48 ∧ w = bytesAt h.mem p (h.tag a .size)

theorem Shows.live (hS : Shows Holds h L A) (hp : A p = some w) :
    ∃ a ∈ Live h L, p = a + 48 ∧ h.tag a .size = w.length ∧ bytesAt h.mem p w.length = w := by
  obtain ⟨a, ha, heq, hw⟩ := (hS.shown p w).mp hp
  have hlen : w.length = h.tag a .size := by rw [hw, length_bytesAt]
  exact ⟨a, ha, heq, hlen.symm, by rw [hlen]; exact hw.symm⟩

theorem Shows.of_live (hS : Shows Holds h L A) (ha : a ∈ Live h L) :
    A (a + 48) = some (bytesAt h.mem (a + 48) (h.tag a .size)) :=
  (hS.shown _ _).mpr ⟨a, ha, rfl, rfl⟩

/-- The bytes of two areas in use are apart. -/
theorem HeapRep.apart_live (hR : HeapRep h L ∅) (ha : a ∈ Live h L) (hb : b ∈ Live h L)
    (hne : a ≠ b) : a + 48 + h.tag a .size ≤ b + 48 ∨ b + 48 + h.tag b .size ≤ a + 48 := by
  have hfits := hR.fits a ha.1 ha.2 (Set.notMem_empty a)
  have hfits' := hR.fits b hb.1 hb.2 (Set.notMem_empty b)
  rcases hR.areas ha.1 hb.1 hne with hle | hle
  · exact .inl (by omega)
  · exact .inr (by omega)

/-- An area is taken. -/
theorem Shows.put (hS : Shows Holds h L A) (hC : Consistent Holds h' L')
    (hlive : Live h' L' = insert a (Live h L)) (ha : a ∉ Live h L) (hsize : h'.tag a .size = n)
    (hsame : SameIn (Live h L) h h') :
    New A (a + 48) n ∧
      Shows Holds h' L' (ArrayHeap.put A (a + 48) (bytesAt h'.mem (a + 48) n)) := by
  have hbytes : ∀ b ∈ Live h L, bytesAt h'.mem (b + 48) (h'.tag b .size) =
      bytesAt h.mem (b + 48) (h.tag b .size) := fun b hb ↦ by
    rw [(hsame b hb).1]
    exact bytesAt_congr (hsame b hb).2
  refine ⟨⟨by omega, ?_, fun q w hq ↦ ?_⟩, hC, fun p w ↦ ?_⟩
  · cases hp : A (a + 48) with
    | none => rfl
    | some w =>
      obtain ⟨b, hb, heq, -⟩ := hS.live hp
      obtain rfl : a = b := by omega
      exact absurd hb ha
  · obtain ⟨b, hb, rfl, hlen, -⟩ := hS.live hq
    rw [← hlen, ← (hsame b hb).1, ← hsize]
    refine hC.rep.apart_live ?_ ?_ fun heq ↦ ha (heq ▸ hb)
    · rw [hlive]
      exact .inl rfl
    · rw [hlive]
      exact .inr hb
  · by_cases hp : p = a + 48
    · subst hp
      rw [ArrayHeap.put_self, Option.some_inj]
      constructor
      · rintro rfl
        exact ⟨a, hlive ▸ .inl rfl, rfl, by rw [hsize]⟩
      · rintro ⟨b, -, heq, rfl⟩
        obtain rfl : a = b := by omega
        rw [hsize]
    · rw [ArrayHeap.put_ne hp, hS.shown, hlive]
      constructor
      · rintro ⟨b, hb, rfl, rfl⟩
        exact ⟨b, .inr hb, rfl, (hbytes b hb).symm⟩
      · rintro ⟨b, rfl | hb, rfl, rfl⟩
        · exact absurd rfl hp
        · exact ⟨b, hb, rfl, hbytes b hb⟩

/-- An area is given back. -/
theorem Shows.drop (hS : Shows Holds h L A) (hC : Consistent Holds h' L')
    (hlive : Live h' L' = Live h L \ {a}) (hsame : SameIn (Live h L \ {a}) h h') :
    Shows Holds h' L' (ArrayHeap.drop A (a + 48)) := by
  refine ⟨hC, fun p w ↦ ?_⟩
  by_cases hp : p = a + 48
  · subst hp
    rw [ArrayHeap.drop_self, hlive]
    constructor
    · rintro ⟨⟩
    · rintro ⟨b, ⟨-, hba⟩, heq, -⟩
      exact absurd (show b = a by omega) hba
  · rw [ArrayHeap.drop_ne hp, hS.shown, hlive]
    constructor
    · rintro ⟨b, hb, rfl, rfl⟩
      have hb' : b ∈ Live h L \ {a} := ⟨hb, fun heq ↦ hp (by rw [show b = a from heq])⟩
      exact ⟨b, hb', rfl, by rw [(hsame b hb').1, bytesAt_congr (hsame b hb').2]⟩
    · rintro ⟨b, hb, rfl, rfl⟩
      exact ⟨b, hb.1, rfl, by rw [(hsame b hb).1, bytesAt_congr (hsame b hb).2]⟩

/-- Something is written in an array. -/
theorem Shows.write (hS : Shows Holds h L A) (ha : a ∈ Live h L)
    (hmem : ∀ x, ¬(a + 48 ≤ x ∧ x < a + 48 + h.tag a .size) → m x = h.mem x) :
    Shows Holds { h with mem := m } L
      (ArrayHeap.put A (a + 48) (bytesAt m (a + 48) (h.tag a .size))) := by
  have hC := hS.consistent
  have hfits := hC.rep.fits a ha.1 ha.2 (Set.notMem_empty a)
  -- no tag is where the array is
  have htag : ∀ x, L.IsTag x → ∀ f, ({ h with mem := m } : State σ).tag x f = h.tag x f :=
    fun x hx f ↦ tag_congr fun y hxy hyx ↦ hmem y fun hin ↦ by
      by_cases hxa : x = a
      · omega
      · have hreal := (hC.rep.bounds hx).2.1
        rcases hC.rep.areas hx ha.1 hxa with hle | hle <;> omega
  have hin : ∀ x, L.IsTag x → (({ h with mem := m } : State σ).InList x ↔ h.InList x) :=
    fun x hx ↦ by rw [State.InList, htag x hx, State.InList]
  have hlive : Live { h with mem := m } L = Live h L :=
    Set.ext fun x ↦ and_congr_right fun hx ↦ not_congr (hin x hx)
  have hC' : Consistent Holds { h with mem := m } L := by
    refine ⟨hC.rep.congr rfl htag, fun i ↦ ?_, hC.few, hC.holds, hC.initialized⟩
    rw [wholeCount_congr rfl fun x hx ↦ ?_]
    · exact hC.counted i
    · have hx := ((hC.rep.mem_iff i x).mp hx).1
      rw [State.Whole, htag x hx, htag x hx, State.Whole]
  refine ⟨hC', fun p w ↦ ?_⟩
  rw [hlive]
  by_cases hp : p = a + 48
  · subst hp
    rw [ArrayHeap.put_self, Option.some_inj]
    constructor
    · rintro rfl
      exact ⟨a, ha, rfl, by rw [htag a ha.1]⟩
    · rintro ⟨b, -, heq, rfl⟩
      obtain rfl : a = b := by omega
      rw [htag a ha.1]
  · have hbytes : ∀ b ∈ Live h L, b ≠ a → bytesAt m (b + 48)
        (({ h with mem := m } : State σ).tag b .size) =
        bytesAt h.mem (b + 48) (h.tag b .size) := fun b hb hne ↦ by
      rw [htag b hb.1]
      refine bytesAt_congr fun i hi ↦ hmem _ fun hin ↦ ?_
      rcases hC.rep.apart_live hb ha hne with hle | hle <;> omega
    rw [ArrayHeap.put_ne hp, hS.shown]
    constructor
    · rintro ⟨b, hb, rfl, rfl⟩
      exact ⟨b, hb, rfl, (hbytes b hb fun heq ↦ hp (by rw [heq])).symm⟩
    · rintro ⟨b, hb, rfl, rfl⟩
      exact ⟨b, hb, rfl, hbytes b hb fun heq ↦ hp (by rw [heq])⟩

/-! ## The calls -/

/-- What a call does to the heap.  A loop may take any number of tests to come to its end. -/
inductive Moves (source : PageSource σ) (h : State σ) : Call Byte → ℕ → State σ → Prop
  | malloc {fresh : ByteMem} {tests n r : ℕ} {h' : State σ}
      (hcall : malloc source fresh tests n h = some (r, h')) : Moves source h (.malloc n) r h'
  | calloc {fresh : ByteMem} {tests parts n r : ℕ} {h' : State σ}
      (hcall : calloc source fresh tests parts n h = some (r, h')) :
      Moves source h (.calloc parts n) r h'
  | realloc {fresh : ByteMem} {tests p n r : ℕ} {h' : State σ}
      (hcall : realloc source fresh tests p n h = some (r, h')) :
      Moves source h (.realloc p n) r h'
  | free {tests p : ℕ} {h' : State σ} (hcall : free source tests p h = some h') :
      Moves source h (.free p) 0 h'
  | store (p i : ℕ) (v : Byte) :
      Moves source h (.store p i v) 0 { h with mem := Function.update h.mem (p + i) v }

/-- What a program may do that has arrays of these sizes. -/
def Allowed (s : ℕ → Option ℕ) : Call Byte → Prop
  | .malloc n => n + 48 + 4096 ≤ 2 ^ 32
  | .calloc parts n => parts * n < 2 ^ 31
  | .realloc p n => n + 48 + 4096 ≤ 2 ^ 32 ∧
      (p = 0 ∨ ∃ k, s p = some k ∧ (k < 2 ^ 31 ∨ n < 2 ^ 31))
  | .free p => p = 0 ∨ ∃ k, s p = some k
  | .store p i _ => ∃ k, s p = some k ∧ i < k

theorem Shows.malloc_spec (hsound : source.Sound Holds) (hS : Shows Holds h L A)
    (hsize : n + 48 + 4096 ≤ 2 ^ 32) (fresh : ByteMem) :
    ∃ N, ∀ tests, N ≤ tests →
      (malloc source fresh tests n h = none ∧ source.alloc (pagesFor (n + 48)) h.pages = none) ∨
      ∃ p h' L', malloc source fresh tests n h = some (p, h') ∧ New A p n ∧
        Shows Holds h' L' (ArrayHeap.put A p (bytesAt h'.mem p n)) := by
  refine ⟨(L.lists (listIndex n)).length + 1, fun tests htests ↦ ?_⟩
  rcases Liballoc.malloc_spec fresh hsound hS.consistent hsize htests with
    ⟨hnone, hsource⟩ | ⟨a, h', L', hcall, -, hC, hlive, ha, hsize', hsame⟩
  · exact .inl ⟨hnone, hsource⟩
  · obtain ⟨hnew, hS'⟩ := hS.put hC hlive ha hsize' hsame
    exact .inr ⟨_, h', L', hcall, hnew, hS'⟩

theorem Shows.free_spec (hsound : source.Sound Holds) (hS : Shows Holds h L A)
    (hp : A p = some w) (htests : 2 ≤ tests) :
    ∃ h' L', free source tests p h = some h' ∧ Shows Holds h' L' (ArrayHeap.drop A p) := by
  obtain ⟨a, ha, rfl, -⟩ := hS.live hp
  obtain ⟨h', L', hcall, hC, hlive, hsame⟩ :=
    Liballoc.free_spec hsound hS.consistent ha htests
  exact ⟨h', L', hcall, hS.drop hC hlive hsame⟩

theorem Shows.write_spec (hS : Shows Holds h L A) (hp : A p = some w)
    (hmem : ∀ x, ¬(p ≤ x ∧ x < p + w.length) → m x = h.mem x) :
    Shows Holds { h with mem := m } L (ArrayHeap.put A p (bytesAt m p w.length)) := by
  obtain ⟨a, ha, rfl, hlen, -⟩ := hS.live hp
  rw [← hlen] at hmem ⊢
  exact hS.write ha hmem

theorem put_put (A : Arrays Byte) (p : ℕ) (w w' : List Byte) :
    ArrayHeap.put (ArrayHeap.put A p w) p w' = ArrayHeap.put A p w' := Function.update_idem ..

theorem Shows.calloc_spec (hsound : source.Sound Holds) (hS : Shows Holds h L A) {parts : ℕ}
    (hsize : parts * n < 2 ^ 31) (fresh : ByteMem) :
    ∃ N, ∀ tests, N ≤ tests →
      (calloc source fresh tests parts n h = none ∧
        source.alloc (pagesFor (parts * n + 48)) h.pages = none) ∨
      ∃ p h' L', calloc source fresh tests parts n h = some (p, h') ∧ New A p (parts * n) ∧
        Shows Holds h' L' (ArrayHeap.put A p (List.replicate (parts * n) 0)) := by
  obtain ⟨N, hN⟩ := hS.malloc_spec hsound (n := parts * n) (by omega) fresh
  refine ⟨N, fun tests htests ↦ ?_⟩
  rw [calloc, asInt_of_lt hsize]
  rcases hN tests htests with ⟨hnone, hsource⟩ | ⟨p, h', L', hcall, hnew, hS'⟩
  · exact .inl ⟨by simp only [hnone], hsource⟩
  · have hzero := hS'.write_spec (m := liballocMemset p 0 (parts * n) h'.mem) ArrayHeap.put_self
      fun x hx ↦ by
        rw [length_bytesAt] at hx
        rw [liballocMemset, memsetFrom_apply, if_neg (by omega)]
    have hbytes : bytesAt (liballocMemset p 0 (parts * n) h'.mem) p (parts * n) =
        List.replicate (parts * n) 0 := by
      refine List.eq_replicate_iff.mpr ⟨length_bytesAt .., fun x hx ↦ ?_⟩
      obtain ⟨i, hi, rfl⟩ := List.mem_map.mp hx
      have hi := List.mem_range.mp hi
      rw [liballocMemset, memsetFrom_apply, if_pos (by omega)]
    rw [put_put, length_bytesAt, hbytes] at hzero
    exact .inr ⟨p, _, L', by simp only [hcall], hnew, hzero⟩

/-- What is kept when as many bytes are copied as there are in both. -/
theorem take_bytesAt_moved (q p k n : ℕ) (m : ByteMem) :
    (bytesAt (moved q p (min k n) m) q n).take k = (bytesAt m p k).take n := by
  refine List.ext_getElem (by simp [Nat.min_comm]) fun i hi hi' ↦ ?_
  simp only [List.length_take, length_bytesAt, lt_min_iff] at hi
  rw [List.getElem_take, List.getElem_take, getElem_bytesAt, getElem_bytesAt, moved,
    if_pos (by omega), Nat.add_sub_cancel_left]

theorem Shows.realloc_spec (hsound : source.Sound Holds) (hS : Shows Holds h L A)
    (hsize : n + 48 + 4096 ≤ 2 ^ 32) (hn : n ≠ 0) (hp : A p = some w)
    (hint : w.length < 2 ^ 31 ∨ n < 2 ^ 31) (fresh : ByteMem) :
    ∃ N, ∀ tests, N ≤ tests →
      (realloc source fresh tests p n h = none ∧ source.alloc (pagesFor (n + 48)) h.pages = none) ∨
      ∃ q h' L' w', realloc source fresh tests p n h = some (q, h') ∧ New A q n ∧
        w'.length = n ∧ w'.take w.length = w.take n ∧
        Shows Holds h' L' (ArrayHeap.put (ArrayHeap.drop A p) q w') := by
  obtain ⟨a, ha, rfl, hlen, hbytes⟩ := hS.live hp
  have hlt : w.length < 2 ^ 32 := hlen ▸ tag_lt h a .size
  -- the `int` is the smaller size, unless both are too large for it
  have hreal : (if asInt (h.tag (a + 48 - 48) .size) > n then asInt n
      else asInt (h.tag (a + 48 - 48) .size)) = min w.length n := by
    rw [Nat.add_sub_cancel, hlen]
    rcases hint with hw | hn'
    · rw [asInt_of_lt hw]
      split
      · rw [asInt_of_lt (by omega)]
        omega
      · omega
    · rw [asInt_of_lt hn']
      rcases Nat.lt_or_ge w.length (2 ^ 31) with hw | hw
      · rw [asInt_of_lt hw]
        split <;> omega
      · have hbig := asInt_of_le hw hlt
        rw [if_pos (by omega)]
        omega
  obtain ⟨N, hN⟩ := hS.malloc_spec hsound hsize fresh
  refine ⟨max N 2, fun tests htests ↦ ?_⟩
  rw [realloc, if_neg hn, if_neg (by omega)]
  dsimp only
  rw [hreal]
  rcases hN tests (by omega) with ⟨hnone, hsource⟩ | ⟨q, h', L', hcall, hnew, hS'⟩
  · exact .inl ⟨by simp only [hnone], hsource⟩
  · right
    have hqp : a + 48 ≠ q := fun heq ↦ by
      have hnone := hnew.none
      rw [← heq, hp] at hnone
      cases hnone
    have hold : ArrayHeap.put A q (bytesAt h'.mem q n) (a + 48) = some w := by
      rw [ArrayHeap.put_ne hqp, hp]
    have hbytes' : bytesAt h'.mem (a + 48) w.length = w := by
      obtain ⟨b, -, -, -, hb⟩ := hS'.live hold
      exact hb
    have hforward : Forward q (a + 48) (min w.length n) := by
      rcases hnew.apart (a + 48) w hp with hle | hle
      · exact .inl (by omega)
      · exact .inr (by omega)
    obtain ⟨m₂, hm₂⟩ : ∃ m₂, moved q (a + 48) (min w.length n) h'.mem = m₂ := ⟨_, rfl⟩
    have hcopy := hS'.write_spec (m := m₂) ArrayHeap.put_self fun x hx ↦ by
      rw [length_bytesAt] at hx
      rw [← hm₂, moved, if_neg (by omega)]
    rw [put_put, length_bytesAt] at hcopy
    have hold₂ : ArrayHeap.put A q (bytesAt m₂ q n) (a + 48) = some w := by
      rw [ArrayHeap.put_ne hqp, hp]
    obtain ⟨h₃, L₃, hfree, hS₃⟩ := hcopy.free_spec hsound hold₂ (show 2 ≤ tests by omega)
    refine ⟨q, h₃, L₃, bytesAt m₂ q n, ?_, hnew, length_bytesAt .., ?_, ?_⟩
    · simp only [hcall, liballocMemcpy_eq_moved hforward, hm₂, hfree, Option.map_some]
    · rw [← hm₂, take_bytesAt_moved, hbytes']
    · have hcomm : ArrayHeap.drop (ArrayHeap.put A q (bytesAt m₂ q n)) (a + 48) =
          ArrayHeap.put (ArrayHeap.drop A (a + 48)) q (bytesAt m₂ q n) :=
        Function.update_comm hqp.symm ..
      rwa [hcomm] at hS₃

/-- Storing a byte changes one cell. -/
theorem bytesAt_update (m : ByteMem) (p k i : ℕ) (v : Byte) :
    bytesAt (Function.update m (p + i) v) p k = (bytesAt m p k).set i v := by
  refine List.ext_getElem (by simp) fun j hj hj' ↦ ?_
  rw [getElem_bytesAt, List.getElem_set, getElem_bytesAt]
  by_cases hij : i = j
  · rw [if_pos hij, hij, Function.update_self]
  · rw [if_neg hij, Function.update_of_ne (by omega)]

theorem Shows.null (hS : Shows Holds h L A) : A 0 = none := by
  cases hp : A 0 with
  | none => rfl
  | some w =>
    obtain ⟨a, -, heq, -⟩ := hS.live hp
    omega

theorem exists_of_sizesOf {k : ℕ} (hp : ArrayHeap.sizesOf A p = some k) :
    ∃ w, A p = some w ∧ w.length = k := by
  rw [ArrayHeap.sizesOf, Option.map_eq_some_iff] at hp
  exact hp

/-- **An allowed call returns**, unless there are no pages. -/
theorem Shows.returns (hsound : source.Sound Holds) (hS : Shows Holds h L A) {c : Call Byte}
    (hc : Allowed (ArrayHeap.sizesOf A) c) :
    (∃ r h', Moves source h c r h') ∨
      ∃ n, c.asks = some n ∧ source.alloc (pagesFor (n + 48)) h.pages = none := by
  cases c with
  | malloc n =>
    obtain ⟨N, hN⟩ := hS.malloc_spec hsound hc h.mem
    rcases hN N le_rfl with ⟨-, hno⟩ | ⟨p, h', -, hcall, -⟩
    · exact .inr ⟨n, rfl, hno⟩
    · exact .inl ⟨p, h', .malloc hcall⟩
  | calloc parts n =>
    obtain ⟨N, hN⟩ := hS.calloc_spec hsound hc h.mem
    rcases hN N le_rfl with ⟨-, hno⟩ | ⟨p, h', -, hcall, -⟩
    · exact .inr ⟨_, rfl, hno⟩
    · exact .inl ⟨p, h', .calloc hcall⟩
  | realloc p n =>
    obtain ⟨hsize, hp⟩ := hc
    by_cases hn : n = 0
    · subst hn
      rcases hp with rfl | ⟨k, hk, -⟩
      · exact .inl ⟨0, h, .realloc (show realloc source h.mem 0 0 0 h = some (0, h) from rfl)⟩
      · obtain ⟨w, hw, -⟩ := exists_of_sizesOf hk
        obtain ⟨h', -, hcall, -⟩ := hS.free_spec hsound hw (le_refl 2)
        have hcall' : realloc source h.mem 2 p 0 h = some (0, h') := by
          rw [realloc, if_pos rfl, hcall]
          rfl
        exact .inl ⟨0, h', .realloc hcall'⟩
    · rcases hp with rfl | ⟨k, hk, hint⟩
      · obtain ⟨N, hN⟩ := hS.malloc_spec hsound hsize h.mem
        rcases hN N le_rfl with ⟨-, hno⟩ | ⟨p, h', -, hcall, -⟩
        · exact .inr ⟨n, if_neg hn, hno⟩
        · exact .inl ⟨p, h', .realloc (by rwa [realloc, if_neg hn, if_pos rfl])⟩
      · obtain ⟨w, hw, rfl⟩ := exists_of_sizesOf hk
        obtain ⟨N, hN⟩ := hS.realloc_spec hsound hsize hn hw hint h.mem
        rcases hN N le_rfl with ⟨-, hno⟩ | ⟨q, h', -, -, hcall, -⟩
        · exact .inr ⟨n, if_neg hn, hno⟩
        · exact .inl ⟨q, h', .realloc hcall⟩
  | free p =>
    rcases hc with rfl | ⟨k, hk⟩
    · exact .inl ⟨0, h, .free (show free source 0 0 h = some h from rfl)⟩
    · obtain ⟨w, hw, -⟩ := exists_of_sizesOf hk
      obtain ⟨h', -, hcall, -⟩ := hS.free_spec hsound hw (le_refl 2)
      exact .inl ⟨0, h', .free hcall⟩
  | store p i v => exact .inl ⟨0, _, .store p i v⟩

/-- **An allowed call** is one of the separate arrays. -/
theorem Shows.step (hsound : source.Sound Holds) (hS : Shows Holds h L A) {c : Call Byte}
    (hc : Allowed (ArrayHeap.sizesOf A) c) (hmove : Moves source h c r h') :
    ∃ A' L', ArrayHeap.Step 0 A c r A' ∧ Shows Holds h' L' A' := by
  cases hmove with
  | @malloc fresh tests n _ _ hcall =>
    obtain ⟨N, hN⟩ := hS.malloc_spec hsound hc fresh
    have hcall' := malloc_mono (le_max_left tests N) hcall
    rcases hN _ (le_max_right tests N) with ⟨hno, -⟩ | ⟨p, h₁, L', hsome, hnew, hS'⟩
    · rw [hno] at hcall'
      cases hcall'
    · rw [hsome] at hcall'
      cases hcall'
      exact ⟨_, L', .malloc hnew (length_bytesAt ..), hS'⟩
  | @calloc fresh tests parts n _ _ hcall =>
    obtain ⟨N, hN⟩ := hS.calloc_spec hsound hc fresh
    have hcall' := calloc_mono (le_max_left tests N) hcall
    rcases hN _ (le_max_right tests N) with ⟨hno, -⟩ | ⟨p, h₁, L', hsome, hnew, hS'⟩
    · rw [hno] at hcall'
      cases hcall'
    · rw [hsome] at hcall'
      cases hcall'
      exact ⟨_, L', .calloc hnew, hS'⟩
  | @realloc fresh tests p n _ _ hcall =>
    obtain ⟨hsize, hp⟩ := hc
    by_cases hn : n = 0
    · subst hn
      rw [realloc, if_pos rfl, Option.map_eq_some_iff] at hcall
      obtain ⟨h₁, hcall, heq⟩ := hcall
      cases heq
      rcases hp with rfl | ⟨k, hk, -⟩
      · cases hcall
        exact ⟨A, L, .realloc_null_zero, hS⟩
      · obtain ⟨w, hw, -⟩ := exists_of_sizesOf hk
        obtain ⟨h₂, L', hsome, hS'⟩ := hS.free_spec hsound hw (le_max_right tests 2)
        rw [free_mono (le_max_left tests 2) hcall] at hsome
        cases hsome
        exact ⟨_, L', .realloc_zero (by rw [hw]; exact Option.some_ne_none w), hS'⟩
    · rcases hp with rfl | ⟨k, hk, hint⟩
      · rw [realloc, if_neg hn, if_pos rfl] at hcall
        obtain ⟨N, hN⟩ := hS.malloc_spec hsound hsize fresh
        have hcall' := malloc_mono (le_max_left tests N) hcall
        rcases hN _ (le_max_right tests N) with ⟨hno, -⟩ | ⟨p, h₁, L', hsome, hnew, hS'⟩
        · rw [hno] at hcall'
          cases hcall'
        · rw [hsome] at hcall'
          cases hcall'
          exact ⟨_, L', .realloc_null hn hnew (length_bytesAt ..), hS'⟩
      · obtain ⟨w, hw, rfl⟩ := exists_of_sizesOf hk
        obtain ⟨N, hN⟩ := hS.realloc_spec hsound hsize hn hw hint fresh
        have hcall' := realloc_mono (le_max_left tests N) hcall
        rcases hN _ (le_max_right tests N) with
          ⟨hno, -⟩ | ⟨q, h₁, L', w', hsome, hnew, hlen, hkept, hS'⟩
        · rw [hno] at hcall'
          cases hcall'
        · rw [hsome] at hcall'
          cases hcall'
          exact ⟨_, L', .realloc hn hw hnew hlen hkept, hS'⟩
  | @free tests p _ hcall =>
    rcases hc with rfl | ⟨k, hk⟩
    · rw [free, if_pos rfl] at hcall
      cases hcall
      exact ⟨A, L, .free_null, hS⟩
    · obtain ⟨w, hw, -⟩ := exists_of_sizesOf hk
      obtain ⟨h₂, L', hsome, hS'⟩ := hS.free_spec hsound hw (le_max_right tests 2)
      rw [free_mono (le_max_left tests 2) hcall] at hsome
      cases hsome
      exact ⟨_, L', .free (by rw [hw]; exact Option.some_ne_none w), hS'⟩
  | store p i v =>
    obtain ⟨k, hk, hi⟩ := hc
    obtain ⟨w, hw, rfl⟩ := exists_of_sizesOf hk
    obtain ⟨a, -, -, -, hbytes⟩ := hS.live hw
    have hS' := hS.write_spec (m := Function.update h.mem (p + i) v) hw fun x hx ↦
      Function.update_of_ne (by omega) _ _
    rw [bytesAt_update, hbytes] at hS'
    exact ⟨_, L, .store hw hi, hS'⟩

/-! ## Runs -/

/-- The heap before the first call: all of it is zero. -/
def State.unused (mem : ByteMem) (pages : σ) : State σ :=
  { freePages := fun _ ↦ 0, completePages := fun _ ↦ 0, initialized := false,
    mem := mem, pages := pages }

/-- **A run**: the calls of a program that only does what is allowed. -/
inductive HeapRun (source : PageSource σ) (h₀ : State σ) : List (Call Byte × ℕ) → State σ → Prop
  | start : HeapRun source h₀ [] h₀
  | call {tr : List (Call Byte × ℕ)} {h h' : State σ} {c : Call Byte} {r : ℕ}
      (hrun : HeapRun source h₀ tr h) (hc : Allowed (ArrayHeap.sizes tr) c)
      (hmove : Moves source h c r h') : HeapRun source h₀ (tr ++ [(c, r)]) h'

theorem shows_unused {pages : σ} (hholds : Holds pages []) :
    Shows Holds (State.unused m pages) ⟨[], fun _ ↦ [], fun _ ↦ []⟩ fun _ ↦ none := by
  have hno : ∀ a, ¬ Layout.IsTag ⟨[], fun _ ↦ [], fun _ ↦ []⟩ a := by
    rintro a ⟨c, hc, -⟩
    cases hc
  refine ⟨⟨{ apart := .nil, run := ?_, row := ?_, split := ?_, front := fun i ↦ rfl,
             linked := fun i ↦ DoubleLinks.linkedList_nil _ _, mem_iff := fun i a ↦ ?_,
             unlisted := fun a ha ↦ absurd ha (hno a), status := fun a ha ↦ absurd ha (hno a),
             magic := fun a ha ↦ absurd ha (hno a), fits := fun a ha ↦ absurd ha (hno a),
             coalesced := ?_ }, fun i ↦ rfl, fun i ↦ (show (0 : ℤ) ≤ 5 by decide), hholds,
      fun _ ↦ rfl⟩, fun p w ↦ ?_⟩
  · rintro c ⟨⟩
  · rintro c ⟨⟩
  · rintro c ⟨⟩
  · exact ⟨fun h ↦ (nomatch h), fun h ↦ absurd h.1 (hno a)⟩
  · rintro c ⟨⟩
  · exact ⟨fun h ↦ (nomatch h), fun ⟨a, ha, _⟩ ↦ absurd ha.1 (hno a)⟩

/-- What holds after every run. -/
theorem HeapRun.shows {mem : ByteMem} {pages : σ} (hsound : source.Sound Holds)
    (hholds : Holds pages []) {tr : List (Call Byte × ℕ)}
    (hrun : HeapRun source (State.unused mem pages) tr h) :
    ∃ A L, ArrayHeap.Run 0 tr A ∧ Shows Holds h L A := by
  induction hrun with
  | start => exact ⟨_, _, .start, shows_unused hholds⟩
  | call _ hc hmove ih =>
    obtain ⟨A, L, hideal, hS⟩ := ih
    rw [← hideal.sizes_eq] at hc
    obtain ⟨A', L', hstep, hS'⟩ := hS.step hsound hc hmove
    exact ⟨A', L', .step hideal hstep, hS'⟩

/-- **A run of the heap is a run of separate arrays**, with the same calls and the same results.
What is in the arrays is in memory, and a call that is allowed returns unless there are no pages
for what it asks for. -/
theorem heapRun_refines {mem : ByteMem} {pages : σ} (hsound : source.Sound Holds)
    (hholds : Holds pages []) {tr : List (Call Byte × ℕ)}
    (hrun : HeapRun source (State.unused mem pages) tr h) :
    ∃ A, ArrayHeap.Run 0 tr A ∧ ArrayHeap.Apart A ∧
      (∀ p w, A p = some w → p + w.length ≤ 2 ^ 64 ∧ bytesAt h.mem p w.length = w) ∧
      ∀ c, Allowed (ArrayHeap.sizes tr) c → (∃ r h', Moves source h c r h') ∨
        ∃ n, c.asks = some n ∧ source.alloc (pagesFor (n + 48)) h.pages = none := by
  obtain ⟨A, L, hideal, hS⟩ := hrun.shows hsound hholds
  refine ⟨A, hideal, hideal.apart, fun p w hp ↦ ?_, fun c hc ↦ ?_⟩
  · obtain ⟨a, ha, rfl, hlen, hbytes⟩ := hS.live hp
    have hbound := (hS.consistent.rep.bounds ha.1).2.2
    have hfits := hS.consistent.rep.fits a ha.1 ha.2 (Set.notMem_empty a)
    exact ⟨by omega, hbytes⟩
  · rw [← hideal.sizes_eq] at hc
    exact hS.returns hsound hc

/-! ## What is kept -/

/-- Where nothing is in use, a run is one area. -/
theorem Consistent.tags_of_unused (hC : Consistent Holds h L) (hlive : Live h L = ∅) {c : ℕ × ℕ}
    (hc : c ∈ L.runs) : L.tags c.1 = [c.1] ∧ h.tag c.1 .realSize = 4096 * c.2 := by
  have hfree : ∀ x ∈ L.tags c.1, h.InList x := fun x hx ↦ by
    by_contra hno
    have hx' : x ∈ Live h L := ⟨⟨c, hc, hx⟩, hno⟩
    rw [hlive] at hx'
    exact hx'
  have hrow := hC.rep.row c hc
  have halt := hC.rep.coalesced c hc
  obtain ⟨-, hpages, -⟩ := hC.rep.run c hc
  cases htags : L.tags c.1 with
  | nil =>
    rw [htags] at hrow
    have hend : c.1 = c.1 + 4096 * c.2 := hrow
    omega
  | cons t l =>
    rw [htags] at hrow halt hfree
    obtain ⟨heq, -, hend⟩ := hrow
    cases l with
    | nil =>
      have hend : c.1 + h.tag t .realSize = c.1 + 4096 * c.2 := hend
      rw [heq] at hend ⊢
      exact ⟨rfl, by omega⟩
    | cons x l =>
      have hpair := (List.isChain_cons_cons.mp halt).1
      exact absurd ⟨hfree t (by simp), hfree x (by simp)⟩ hpair

/-- Of the runs of one class at most five are kept where nothing is in use. -/
theorem Consistent.runs_le (hC : Consistent Holds h L) (hlive : Live h L = ∅) (i : ℕ) :
    L.runs.countP (fun c ↦ listIndex (room (4096 * c.2)) = i) ≤ 5 := by
  have hnodup : (L.runs.map Prod.fst).Nodup := by
    refine List.pairwise_map.mpr (hC.rep.apart.imp_of_mem fun {c d} hc hd hle heq ↦ ?_)
    obtain ⟨-, hpages, -⟩ := hC.rep.run c hc
    obtain ⟨-, hpages', -⟩ := hC.rep.run d hd
    omega
  obtain ⟨l, hl⟩ : ∃ l, L.runs.filter (fun c ↦ listIndex (room (4096 * c.2)) = i) = l := ⟨_, rfl⟩
  have hsub : l.map Prod.fst ⊆ (L.lists i).filter fun a ↦ h.Whole a := by
    intro t ht
    obtain ⟨c, hcl, rfl⟩ := List.mem_map.mp ht
    rw [← hl] at hcl
    obtain ⟨hc, hi⟩ := List.mem_filter.mp hcl
    have hi : listIndex (room (4096 * c.2)) = i := of_decide_eq_true hi
    obtain ⟨htags, hreal⟩ := hC.tags_of_unused hlive hc
    have hT : L.IsTag c.1 := ⟨c, hc, by simp [htags]⟩
    have hin : h.InList c.1 := by
      by_contra hno
      have hx : c.1 ∈ Live h L := ⟨hT, hno⟩
      rw [hlive] at hx
      exact hx
    have hbeside := hC.rep.beside (u := []) (v := []) hc htags
    refine List.mem_filter.mpr ⟨(hC.rep.mem_iff i c.1).mpr ⟨hT, hin, ?_⟩, ?_⟩
    · refine ((hC.rep.status c.1 hT).resolve_left fun hno ↦ ?_).trans (by rw [hreal, hi])
      rw [State.InList, hno] at hin
      exact absurd hin (by decide)
    · exact decide_eq_true hbeside
  have hle := (List.Nodup.subperm (((List.filter_sublist (p := fun c : ℕ × ℕ ↦
    decide (listIndex (room (4096 * c.2)) = i)) (l := L.runs)).map Prod.fst).nodup hnodup)
    (by rw [hl]; exact hsub)).length_le
  have hcount := hC.counted i
  have hfew := hC.few i
  rw [hcount, wholeCount, List.countP_eq_length_filter] at hfew
  rw [List.length_map] at hle
  rw [List.countP_eq_length_filter]
  unfold maxComplete at hfew
  omega

/-- **What is freed is given back**: after a run that has freed everything, each run of pages that
is kept is one free area, and of each class of sizes at most five are kept. -/
theorem heapRun_freed {mem : ByteMem} {pages : σ} (hsound : source.Sound Holds)
    (hholds : Holds pages []) {tr : List (Call Byte × ℕ)}
    (hrun : HeapRun source (State.unused mem pages) tr h)
    (hfreed : ArrayHeap.sizes tr = fun _ ↦ none) :
    ∃ runs, Holds h.pages runs ∧
      (∀ c ∈ runs, h.InList c.1 ∧ h.Whole c.1 ∧ h.tag c.1 .realSize = 4096 * c.2) ∧
      ∀ i, runs.countP (fun c ↦ listIndex (room (4096 * c.2)) = i) ≤ 5 := by
  obtain ⟨A, L, hideal, hS⟩ := hrun.shows hsound hholds
  have hlive : Live h L = ∅ := by
    refine Set.eq_empty_of_forall_notMem fun a ha ↦ ?_
    have hsome := congrFun hideal.sizes_eq (a + 48)
    rw [hfreed, ArrayHeap.sizesOf, hS.of_live ha] at hsome
    cases hsome
  have hC := hS.consistent
  refine ⟨L.runs, hC.holds, fun c hc ↦ ?_, fun i ↦ hC.runs_le hlive i⟩
  obtain ⟨htags, hreal⟩ := hC.tags_of_unused hlive hc
  refine ⟨?_, hC.rep.beside (u := []) (v := []) hc htags, hreal⟩
  by_contra hno
  have hx : c.1 ∈ Live h L := ⟨⟨c, hc, by simp [htags]⟩, hno⟩
  rw [hlive] at hx
  exact hx

end Liballoc
end Borrrdex
