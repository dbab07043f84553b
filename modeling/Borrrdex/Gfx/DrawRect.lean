import Borrrdex.Basic
import Borrrdex.Fterm.Terminal
import Borrrdex.Lib.FlatMemory

/-!
# Filled rectangles

`draw_rect` cuts a rectangle off at the left and at the top by its size, at the right by the width
of the surface, and at the bottom by the condition of its loop, and fills what is left row by row,
with `memset32_optimized`.  `drawRect_paints` says that this is the part of the rectangle that lies
on the surface.

A pixel is the number of its word in the buffer.  What paints some of them leaves their words with a
colour and every other byte of memory as it was (`Paints`), and one painting after another paints
both parts.
-/

set_option autoImplicit false

namespace Borrrdex

namespace Gfx

open FlatMemory Fterm

/-- `surface_t`, of 32 bits a pixel. -/
structure Surface where
  width : ℤ
  height : ℤ
  buffer : U64

/-- `0xFF000000 | (r << 16) | g << 8 | b`. -/
def color (r g b : Byte) : U32 :=
  0xFF000000#32 ||| r.setWidth 32 <<< 16 ||| g.setWidth 32 <<< 8 ||| b.setWidth 32

/-- `memset32_optimized`. -/
def memset32Optimized (dst : U64) (c : U32) : ℕ → Mem → Mem
  | 0, m => m
  | count + 1, m => memset32Optimized (dst + 4) c count (putBytes dst 4 c.toNat m)

/-- The loop of `draw_rect`, from the row `i` on, with so many more rows of the rectangle. -/
def drawRows (s : Surface) (x y w : ℤ) (c : U32) : ℕ → ℤ → Mem → Mem
  | 0, _, m => m
  | rows + 1, i, m =>
    if int32 (i + y) < s.height then
      let yOff := BitVec.ofInt 32 (int32 (i + y) * s.width)
      let dst := s.buffer + BitVec.ofNat 64 (4 * (yOff + BitVec.ofInt 32 x).toNat)
      drawRows s x y w c rows (i + 1) (if 0 < w then memset32Optimized dst c w.toNat m else m)
    else m

/-- `draw_rect`, behind the two tests of where the rectangle begins. -/
def drawClipped (x y width height : ℤ) (c : U32) (s : Surface) (m : Mem) : Mem :=
  let w := if int32 (x + width) < s.width then width else int32 (s.width - x)
  drawRows s x y w c height.toNat 0 m

/-- `draw_rect`. -/
def drawRect (x y width height : ℤ) (r g b : Byte) (s : Surface) (m : Mem) : Mem :=
  let width := if x < 0 then int32 (width + x) else width
  let x := if x < 0 then 0 else x
  if width ≤ 0 then m
  else
    let height := if y < 0 then int32 (height + y) else height
    let y := if y < 0 then 0 else y
    if height ≤ 0 then m else drawClipped x y width height (color r g b) s m

/-! ## The colour -/

/-- The alpha value of the colour is 255. -/
theorem toNat_color (r g b : Byte) :
    (color r g b).toNat = 2 ^ 24 * 255 + (2 ^ 16 * r.toNat + (2 ^ 8 * g.toNat + b.toNat)) := by
  have hr := r.isLt
  have hg := g.isLt
  have hb := b.isLt
  have hshift : ∀ (c : Byte) (k : ℕ), k ≤ 16 →
      (c.setWidth 32 <<< k).toNat = 2 ^ k * c.toNat := fun c k hk ↦ by
    have hc := c.isLt
    have hpow : 2 ^ k ≤ 2 ^ 16 := Nat.pow_le_pow_right (by decide) hk
    rw [BitVec.toNat_shiftLeft, BitVec.toNat_setWidth_of_le (by decide), Nat.shiftLeft_eq,
      Nat.mul_comm, Nat.mod_eq_of_lt]
    calc 2 ^ k * c.toNat < 2 ^ k * 2 ^ 8 := Nat.mul_lt_mul_of_pos_left hc (Nat.two_pow_pos k)
      _ ≤ 2 ^ 16 * 2 ^ 8 := Nat.mul_le_mul_right _ hpow
      _ ≤ 2 ^ 32 := by decide
  have hzero : (0xFF000000#32).toNat = 2 ^ 24 * 255 := rfl
  rw [color, BitVec.toNat_or, BitVec.toNat_or, BitVec.toNat_or, hshift r 16 le_rfl,
    hshift g 8 (by decide), BitVec.toNat_setWidth_of_le (by decide), hzero, Nat.or_assoc,
    Nat.or_assoc, ← Nat.two_pow_add_eq_or_of_lt hb,
    ← Nat.two_pow_add_eq_or_of_lt (i := 16) (by omega) r.toNat,
    ← Nat.two_pow_add_eq_or_of_lt (i := 24) (by omega) 255]

/-! ## Painting -/

/-- The pixels of `A` get a colour, in a buffer, and no other byte of memory changes. -/
def Paints (buffer : U64) (c : U32) (A : ℕ → Prop) (m m' : Mem) : Prop :=
  ∀ a, (A ((a - buffer).toNat / 4) →
      m' a = BitVec.ofNat 8 (c.toNat / 256 ^ ((a - buffer).toNat % 4))) ∧
    (¬ A ((a - buffer).toNat / 4) → m' a = m a)

variable {buffer : U64} {c : U32} {A B : ℕ → Prop} {m m' m'' : Mem}

theorem Paints.refl (buffer : U64) (c : U32) (m : Mem) : Paints buffer c (fun _ ↦ False) m m :=
  fun _ ↦ ⟨False.elim, fun _ ↦ rfl⟩

theorem Paints.congr (h : Paints buffer c A m m') (hAB : ∀ p < 2 ^ 62, A p ↔ B p) :
    Paints buffer c B m m' := by
  intro a
  have hlt := (a - buffer).isLt
  have hp := hAB ((a - buffer).toNat / 4) (by omega)
  exact ⟨fun hB ↦ (h a).1 (hp.mpr hB), fun hB ↦ (h a).2 (mt hp.mp hB)⟩

/-- **One painting after another.** -/
theorem Paints.trans (h : Paints buffer c A m m') (h' : Paints buffer c B m' m'') :
    Paints buffer c (fun p ↦ A p ∨ B p) m m'' := by
  intro a
  by_cases hB : B ((a - buffer).toNat / 4)
  · exact ⟨fun _ ↦ (h' a).1 hB, fun hnot ↦ absurd (.inr hB) hnot⟩
  · rw [(h' a).2 hB]
    exact ⟨fun hor ↦ (h a).1 (hor.resolve_right hB), fun hnot ↦ (h a).2 fun hA ↦ hnot (.inl hA)⟩

/-- One pixel. -/
theorem paints_putBytes {k : ℕ} (hk : k < 2 ^ 62) (m : Mem) :
    Paints buffer c (· = k) m
      (putBytes (buffer + BitVec.ofNat 64 (4 * k)) 4 c.toNat m) := by
  intro a
  have hlt := (a - buffer).isLt
  have hoff : (a - (buffer + BitVec.ofNat 64 (4 * k))).toNat =
      (2 ^ 64 - 4 * k + (a - buffer).toNat) % 2 ^ 64 := by
    have hmod : 4 * k % 2 ^ 64 = 4 * k := Nat.mod_eq_of_lt (by omega)
    rw [sub_add_eq_sub_sub, BitVec.toNat_sub, BitVec.toNat_ofNat, hmod]
  rw [putBytes, hoff]
  constructor
  · intro hA
    rw [if_pos (by omega)]
    congr 3
    omega
  · intro hA
    exact if_neg (by omega)

/-- **A row**, or a part of it. -/
theorem paints_memset32Optimized {k n : ℕ} (hk : k + n ≤ 2 ^ 62) (m : Mem) :
    Paints buffer c (fun p ↦ k ≤ p ∧ p < k + n) m
      (memset32Optimized (buffer + BitVec.ofNat 64 (4 * k)) c n m) := by
  induction n generalizing k m with
  | zero => exact (Paints.refl buffer c m).congr fun p _ ↦ ⟨False.elim, fun hp ↦ by omega⟩
  | succ n ih =>
    have hnext : buffer + BitVec.ofNat 64 (4 * k) + 4 = buffer + BitVec.ofNat 64 (4 * (k + 1)) := by
      rw [Nat.mul_add, BitVec.ofNat_add, ← add_assoc]
      rfl
    rw [memset32Optimized, hnext]
    have hfirst : Paints buffer c (· = k) m _ := paints_putBytes (by omega) m
    exact (hfirst.trans (ih (by omega) _)).congr fun p _ ↦ by omega

/-! ## Rows -/

/-- The value of an `int` that has room. -/
theorem int32_eq {z : ℤ} (hlo : -2 ^ 31 ≤ z) (hhi : z < 2 ^ 31) : int32 z = z := by
  rw [int32, BitVec.toInt_ofInt]
  exact Int.bmod_eq_of_le (by omega) (by omega)

/-- A surface whose pixels an `int` can number. -/
structure Surface.Valid (s : Surface) : Prop where
  width_pos : 0 < s.width
  height_pos : 0 < s.height
  lt : s.width * s.height < 2 ^ 29

/-- The pixels of a row, from a column on. -/
def Surface.InRow (s : Surface) (x w j : ℤ) (p : ℕ) : Prop :=
  j * s.width + x ≤ p ∧ p < j * s.width + x + w

variable {s : Surface} {x y w j : ℤ}

/-- The rows lie behind one another. -/
theorem Surface.Valid.row_le (hs : s.Valid) (hj : 0 ≤ j) (hjh : j < s.height) :
    0 ≤ j * s.width ∧ j * s.width + s.width < 2 ^ 29 := by
  have hwidth := hs.width_pos
  have hlt := hs.lt
  refine ⟨mul_nonneg hj hwidth.le, ?_⟩
  calc j * s.width + s.width = s.width * (j + 1) := by ring
    _ ≤ s.width * s.height := mul_le_mul_of_nonneg_left (by omega) hwidth.le
    _ < 2 ^ 29 := hlt

theorem toNat_ofInt {z : ℤ} (hlo : 0 ≤ z) (hhi : z < 2 ^ 32) :
    (BitVec.ofInt 32 z).toNat = z.toNat := by
  rw [BitVec.toNat_ofInt, Int.emod_eq_of_lt hlo (by omega)]

theorem paints_row (hs : s.Valid) (hx : 0 ≤ x) (hw : w ≤ s.width - x) (hj : 0 ≤ j)
    (hjh : j < s.height) (m : Mem) :
    Paints s.buffer c (s.InRow x w j) m
      (if 0 < w then
        memset32Optimized (s.buffer + BitVec.ofNat 64
          (4 * (BitVec.ofInt 32 (j * s.width) + BitVec.ofInt 32 x).toNat)) c w.toNat m
      else m) := by
  obtain ⟨hlo, hhi⟩ := hs.row_le hj hjh
  split
  · next hpos =>
    have hpixel : (BitVec.ofInt 32 (j * s.width) + BitVec.ofInt 32 x).toNat =
        (j * s.width + x).toNat := by
      rw [BitVec.toNat_add, toNat_ofInt hlo (by omega), toNat_ofInt hx (by omega)]
      omega
    rw [hpixel]
    refine (paints_memset32Optimized (by omega) m).congr fun p _ ↦ ?_
    rw [Surface.InRow]
    omega
  · refine (Paints.refl _ _ m).congr fun p _ ↦ ⟨False.elim, fun hp ↦ ?_⟩
    rw [Surface.InRow] at hp
    omega

/-- **The loop paints the rows that lie on the surface.** -/
theorem paints_drawRows (hs : s.Valid) (hx : 0 ≤ x) (hw : w ≤ s.width - x) {rows : ℕ} {i : ℤ}
    (hi : 0 ≤ i + y) (hrows : i + y + rows < 2 ^ 31) (m : Mem) :
    Paints s.buffer c
      (fun p ↦ ∃ j, i + y ≤ j ∧ j < i + y + rows ∧ j < s.height ∧ s.InRow x w j p) m
      (drawRows s x y w c rows i m) := by
  induction rows generalizing i m with
  | zero =>
    refine (Paints.refl _ _ m).congr fun p _ ↦ ⟨False.elim, ?_⟩
    rintro ⟨j, hle, hlt, -⟩
    omega
  | succ rows ih =>
    rw [drawRows, int32_eq (by omega) (by omega)]
    have hnext : i + 1 + y = i + y + 1 := by ring
    split
    · next hin =>
      have hrow := paints_row (c := c) hs hx hw hi hin m
      refine (hrow.trans (ih (by omega) (by omega) _)).congr fun p _ ↦ ?_
      rw [hnext]
      constructor
      · rintro (hp | ⟨j, hle, hlt, hjh, hp⟩)
        · exact ⟨i + y, le_rfl, by omega, hin, hp⟩
        · exact ⟨j, by omega, by omega, hjh, hp⟩
      · rintro ⟨j, hle, hlt, hjh, hp⟩
        rcases hle.eq_or_lt with rfl | hlt'
        · exact .inl hp
        · exact .inr ⟨j, by omega, by omega, hjh, hp⟩
    · next hout =>
      -- the rows behind the surface are not reached
      refine (Paints.refl _ _ m).congr fun p _ ↦ ⟨False.elim, ?_⟩
      rintro ⟨j, hle, -, hjh, -⟩
      omega

/-! ## The rectangle -/

/-- The pixel in column `p % width` and row `p / width` of the surface is in a rectangle. -/
def Surface.InRect (s : Surface) (x y width height : ℤ) (p : ℕ) : Prop :=
  p < s.width * s.height ∧ (x ≤ p % s.width ∧ p % s.width < x + width) ∧
    y ≤ p / s.width ∧ p / s.width < y + height

variable {width height : ℤ}

/-- A rectangle on the surface, by its rows. -/
theorem inRect_iff (hs : s.Valid) (hx : 0 ≤ x) (p : ℕ) :
    s.InRect x y width height p ↔ ∃ j, y ≤ j ∧ j < y + height ∧ j < s.height ∧
      s.InRow x (min width (s.width - x)) j p := by
  have hwidth := hs.width_pos
  have hdiv := Int.mul_ediv_add_emod p s.width
  have hmod := Int.emod_nonneg p hwidth.ne'
  have hmodlt := Int.emod_lt_of_pos (p : ℤ) hwidth
  rw [Surface.InRect]
  constructor
  · rintro ⟨hp, ⟨hlo, hhi⟩, hylo, hyhi⟩
    refine ⟨p / s.width, hylo, hyhi, ?_, ?_⟩
    · exact Int.ediv_lt_of_lt_mul hwidth (by rw [mul_comm]; exact hp)
    · rw [Surface.InRow, mul_comm]
      omega
  · rintro ⟨j, hylo, hyhi, hjh, hlo, hhi⟩
    have hj : (p : ℤ) / s.width = j := by
      rw [Int.ediv_eq_iff_of_pos hwidth]
      omega
    have hend : s.width * (j + 1) ≤ s.width * s.height :=
      mul_le_mul_of_nonneg_left (by omega) hwidth.le
    rw [hj] at hdiv ⊢
    rw [mul_comm] at hlo hhi
    rw [mul_add, mul_one] at hend
    exact ⟨by omega, ⟨by omega, by omega⟩, hylo, hyhi⟩

/-- Behind the tests, the rectangle begins inside. -/
theorem paints_drawClipped (hs : s.Valid) (hx : 0 ≤ x) (hy : 0 ≤ y) (hxlt : x < 2 ^ 30)
    (hylt : y < 2 ^ 30) (hwidth : 0 < width) (hheight : 0 < height) (hwlt : width < 2 ^ 30)
    (hhlt : height < 2 ^ 30) (m : Mem) :
    Paints s.buffer c (s.InRect x y width height) m (drawClipped x y width height c s m) := by
  have hsw := (hs.row_le le_rfl hs.height_pos).2
  have hpos := hs.width_pos
  rw [zero_mul, zero_add] at hsw
  have hw : (if int32 (x + width) < s.width then width else int32 (s.width - x)) =
      min width (s.width - x) := by
    rw [int32_eq (by omega) (by omega), int32_eq (by omega) (by omega)]
    split <;> omega
  rw [drawClipped, hw]
  refine (paints_drawRows hs hx (by omega) (by omega) (by omega) m).congr fun p _ ↦ ?_
  rw [inRect_iff hs hx, zero_add, Int.toNat_of_nonneg hheight.le]

/-- What the first test makes of a rectangle. -/
theorem exists_cut_left (hs : s.Valid) (hx : |x| < 2 ^ 30) (hwidth : |width| < 2 ^ 30) :
    ∃ x' width', (if x < 0 then 0 else x) = x' ∧
      (if x < 0 then int32 (width + x) else width) = width' ∧
      (0 ≤ x' ∧ x' < 2 ^ 30 ∧ width' < 2 ^ 30) ∧
      ∀ y height p, s.InRect x y width height p ↔ s.InRect x' y width' height p := by
  rw [abs_lt] at hx hwidth
  rcases lt_or_ge x 0 with hneg | hpos
  · rw [if_pos hneg, if_pos hneg, int32_eq (by omega) (by omega)]
    refine ⟨_, _, rfl, rfl, ⟨by omega, by omega, by omega⟩, fun y height p ↦ ?_⟩
    have hmod := Int.emod_nonneg p hs.width_pos.ne'
    rw [Surface.InRect, Surface.InRect]
    omega
  · rw [if_neg (not_lt.mpr hpos), if_neg (not_lt.mpr hpos)]
    exact ⟨_, _, rfl, rfl, ⟨hpos, hx.2, hwidth.2⟩, fun _ _ _ ↦ Iff.rfl⟩

/-- And what the second test makes of it. -/
theorem exists_cut_top (hs : s.Valid) (hy : |y| < 2 ^ 30) (hheight : |height| < 2 ^ 30) :
    ∃ y' height', (if y < 0 then 0 else y) = y' ∧
      (if y < 0 then int32 (height + y) else height) = height' ∧
      (0 ≤ y' ∧ y' < 2 ^ 30 ∧ height' < 2 ^ 30) ∧
      ∀ x width p, s.InRect x y width height p ↔ s.InRect x y' width height' p := by
  rw [abs_lt] at hy hheight
  rcases lt_or_ge y 0 with hneg | hpos
  · rw [if_pos hneg, if_pos hneg, int32_eq (by omega) (by omega)]
    refine ⟨_, _, rfl, rfl, ⟨by omega, by omega, by omega⟩, fun x width p ↦ ?_⟩
    have hdiv := Int.ediv_nonneg (Int.natCast_nonneg p) hs.width_pos.le
    rw [Surface.InRect, Surface.InRect]
    omega
  · rw [if_neg (not_lt.mpr hpos), if_neg (not_lt.mpr hpos)]
    exact ⟨_, _, rfl, rfl, ⟨hpos, hy.2, hheight.2⟩, fun _ _ _ ↦ Iff.rfl⟩

/-- **A rectangle is painted as far as it lies on the surface**, and nothing else. -/
theorem drawRect_paints (hs : s.Valid) (hx : |x| < 2 ^ 30) (hy : |y| < 2 ^ 30)
    (hwidth : |width| < 2 ^ 30) (hheight : |height| < 2 ^ 30) (r g b : Byte) (m : Mem) :
    Paints s.buffer (color r g b) (s.InRect x y width height) m
      (drawRect x y width height r g b s m) := by
  obtain ⟨x', width', hx', hwidth', ⟨hxpos, hxlt, hwlt⟩, hleft⟩ := exists_cut_left hs hx hwidth
  obtain ⟨y', height', hy', hheight', ⟨hypos, hylt, hhlt⟩, htop⟩ := exists_cut_top hs hy hheight
  rw [drawRect, hx', hwidth', hy', hheight']
  refine Paints.congr ?_ fun p _ ↦ ((hleft y height p).trans (htop x' width' p)).symm
  dsimp only
  split
  · next hzero =>
    refine (Paints.refl _ _ m).congr fun p _ ↦ ⟨False.elim, fun hp ↦ ?_⟩
    rw [Surface.InRect] at hp
    omega
  split
  · next hzero =>
    refine (Paints.refl _ _ m).congr fun p _ ↦ ⟨False.elim, fun hp ↦ ?_⟩
    rw [Surface.InRect] at hp
    omega
  · next hwpos hhpos =>
    exact paints_drawClipped hs hxpos hypos hxlt hylt (not_le.mp hwpos)
      (not_le.mp hhpos) hwlt hhlt m

/-- A surface of four pixels. -/
def fourPixels : Surface where
  width := 2
  height := 2
  buffer := 0x1000

/-- A rectangle that goes over all its edges is painted on its four pixels. -/
theorem drawRect_paints_four : Paints 0x1000 (color 1 2 3) (fourPixels.InRect (-1) (-1) 9 9)
    (fun _ ↦ 0) (drawRect (-1) (-1) 9 9 1 2 3 fourPixels fun _ ↦ 0) :=
  drawRect_paints (s := fourPixels) ⟨by decide, by decide, by decide⟩ (by decide) (by decide)
    (by decide) (by decide) 1 2 3 fun _ ↦ 0

end Gfx

end Borrrdex
