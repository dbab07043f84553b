import Borrrdex.Lib.Spans
import Borrrdex.Mm.AddressSpace

/-!
# The regions of an address space over whole runs

The regions of an address space stay in order and disjoint, whatever calls of `map_vmo` and
`allocate_anonymous_vmo` are made on it: `address_space_run_spec` says so, and says where each call
puts its region, as long as the memory of the list takes it (`Takes`).  Both searches of the source
are compared with those of `Span`, where the candidate of `find_available_region` is a plain number
that moves past every region in its way.

`range_in_region` is the test that every user pointer goes through.  It decides on the start of the
first region alone, and `range_in_region_iff` says when that is the right answer.
-/

set_option autoImplicit false

namespace Borrrdex

open Span

variable {κ ω : Type}

namespace Region

/-- The addresses of a region, as the tests of the source see them. -/
def span (r : Region ω) : Span := ⟨r.base.toNat, r.endAddr.toNat⟩

/-- Without wrap-around the end of a region is where it should be. -/
theorem span_eq {b n : U64} {obj : Option ω} (h : b.toNat + n.toNat < 2 ^ 64) :
    (⟨b, n, obj⟩ : Region ω).span = ⟨b.toNat, b.toNat + n.toNat⟩ := by
  rw [span, endAddr, BitVec.toNat_add, Nat.mod_eq_of_lt h]

end Region

namespace Regions

/-- The addresses of all regions. -/
def spans (l : Regions ω) : List Span := l.toList.map Region.span

theorem length_spans (l : Regions ω) : l.spans.length = l.size := by
  rw [spans, List.length_map, KList.length_toList]

/-! ## The two searches -/

/-- The three tests move the candidate past the region, in whatever way they overlap. -/
theorem toNat_skipRegion {size : U64} {r : Region ω} {base : U64} (hr : r.span.lo < r.span.hi)
    (hsize : 0 < size.toNat) (hend : base.toNat + size.toNat < 2 ^ 64)
    (hin : r.span.lo < base.toNat + size.toNat) :
    (skipRegion size r base).toNat = max base.toNat r.span.hi := by
  have hlo : r.span.lo = r.base.toNat := rfl
  have hhi : r.span.hi = r.endAddr.toNat := rfl
  have hsum : (base + size).toNat = base.toNat + size.toNat := by
    rw [BitVec.toNat_add, Nat.mod_eq_of_lt hend]
  rw [hlo] at hr hin
  rw [hhi] at hr ⊢
  simp only [skipRegion, BitVec.le_def, BitVec.lt_def]
  by_cases h1 : r.base.toNat ≤ base.toNat ∧ base.toNat < r.endAddr.toNat
  · -- the candidate starts in the region; once it is moved, the other tests do not move it again
    rw [if_pos h1, ite_self, if_neg (by omega)]
    omega
  · rw [if_neg h1]
    by_cases h2 : r.base.toNat < (base + size).toNat ∧ (base + size).toNat ≤ r.endAddr.toNat
    · rw [if_pos h2, if_neg (by omega)]
      omega
    · rw [if_neg h2]
      by_cases h3 : base.toNat < r.base.toNat ∧ r.endAddr.toNat < (base + size).toNat
      · rw [if_pos h3]
        omega
      · rw [if_neg h3]
        omega

/-- The loop of `find_available_region` ends at the first fit, and in its place. -/
theorem findLoop_spec {size : U64} (hsize : 0 < size.toNat) : ∀ (rs : List (Region ω)) (i : Nat)
    (base : U64), Apart (rs.map Region.span) →
    firstFit size.toNat (rs.map Region.span) base.toNat + size.toNat < 2 ^ 64 →
    ∃ pos b, b.toNat = firstFit size.toNat (rs.map Region.span) base.toNat ∧
      Fits (rs.map Region.span) pos b.toNat size.toNat ∧
      findLoop size rs i base = (if pos < rs.length then some (i + pos) else none, b)
  | [], i, base, _, _ =>
    ⟨0, base, rfl, ⟨le_rfl, by simp, by simp⟩, rfl⟩
  | r :: rs, i, base, hl, hfit => by
    rw [List.map_cons] at hl hfit ⊢
    obtain ⟨hr, hafter, hl'⟩ := hl.of_cons
    have hge := le_firstFit size.toNat (r.span :: rs.map Region.span) base.toNat
    have hend : base.toNat + size.toNat < 2 ^ 64 := by omega
    have hsum : (base + size).toNat = base.toNat + size.toNat := by
      rw [BitVec.toNat_add, Nat.mod_eq_of_lt hend]
    rw [firstFit] at hfit ⊢
    simp only [findLoop, BitVec.le_def, hsum]
    by_cases hstop : base.toNat + size.toNat ≤ r.base.toNat
    · rw [if_pos hstop, if_pos (show base.toNat + size.toNat ≤ r.span.lo from hstop)]
      refine ⟨0, base, rfl, ⟨Nat.zero_le _, by simp, fun s hs ↦ ?_⟩, rfl⟩
      rcases List.mem_cons.mp hs with rfl | hs
      · exact hstop
      · have hlo : r.span.lo = r.base.toNat := rfl
        have := hafter s hs
        omega
    · have hstop' : ¬base.toNat + size.toNat ≤ r.span.lo := hstop
      rw [if_neg hstop'] at hfit ⊢
      rw [if_neg hstop]
      have hskip := toNat_skipRegion hr hsize hend (by omega)
      rw [← hskip] at hfit ⊢
      obtain ⟨pos, b, hb, hfits, hloop⟩ := findLoop_spec hsize rs (i + 1) _ hl' hfit
      have hle := le_firstFit size.toNat (rs.map Region.span) (skipRegion size r base).toNat
      refine ⟨pos + 1, b, hb, hfits.succ (by omega), ?_⟩
      rw [hloop, List.length_cons, Nat.add_assoc, Nat.add_comm 1 pos]
      simp only [Nat.add_lt_add_iff_right]

/-- The loop of `allocate_region_at` ends in the place for the interval, or at a region in its
way. -/
theorem allocateAtLoop_spec {base size : U64} (hend : base.toNat + size.toNat < 2 ^ 64) :
    ∀ (rs : List (Region ω)) (i : Nat), Apart (rs.map Region.span) →
      (∃ pos, Fits (rs.map Region.span) pos base.toNat size.toNat ∧
        allocateAtLoop base size rs i = if pos < rs.length then some (some (i + pos)) else none) ∨
      (∃ r ∈ rs, base.toNat < r.span.hi ∧ r.span.lo < base.toNat + size.toNat) ∧
        allocateAtLoop base size rs i = some none
  | [], i, _ => .inl ⟨0, ⟨le_rfl, by simp, by simp⟩, rfl⟩
  | r :: rs, i, hl => by
    rw [List.map_cons] at hl ⊢
    obtain ⟨hr, hafter, hl'⟩ := hl.of_cons
    have hsum : (base + size).toNat = base.toNat + size.toNat := by
      rw [BitVec.toNat_add, Nat.mod_eq_of_lt hend]
    have hlo : r.span.lo = r.base.toNat := rfl
    have hhi : r.span.hi = r.endAddr.toNat := rfl
    simp only [allocateAtLoop, BitVec.le_def, hsum]
    by_cases h1 : r.endAddr.toNat ≤ base.toNat
    · rw [if_pos h1]
      rcases allocateAtLoop_spec hend rs (i + 1) hl' with ⟨pos, hfits, hloop⟩ |
        ⟨⟨t, ht, hin⟩, hloop⟩
      · refine .inl ⟨pos + 1, hfits.succ h1, ?_⟩
        rw [hloop, List.length_cons, Nat.add_assoc, Nat.add_comm 1 pos]
        simp only [Nat.add_lt_add_iff_right]
      · exact .inr ⟨⟨t, List.mem_cons_of_mem r ht, hin⟩, hloop⟩
    · rw [if_neg h1]
      by_cases h2 : base.toNat + size.toNat ≤ r.base.toNat
      · rw [if_pos h2]
        refine .inl ⟨0, ⟨Nat.zero_le _, by simp, fun s hs ↦ ?_⟩, rfl⟩
        rcases List.mem_cons.mp hs with rfl | hs
        · exact h2
        · have := hafter s hs
          omega
      · rw [if_neg h2]
        exact .inr ⟨⟨r, List.mem_cons_self, by omega, by omega⟩, rfl⟩

/-- There is room for `n` addresses at `b`: below the kernel, or before another region. -/
def Room (l : Regions ω) (b n : Nat) : Prop :=
  b + n < kernelVirtualBase.toNat ∨ ∃ t ∈ l.spans, b + n ≤ t.lo

/-- **`find_available_region` takes the first fit**, unless that is at the end of the list and
reaches into the kernel. -/
theorem findAvailableRegion_spec {size : U64} {l : Regions ω} (hl : Apart l.spans)
    (hsize : 0 < size.toNat) (hfit : firstFit size.toNat l.spans 0x1000 + size.toNat < 2 ^ 64) :
    ∃ b : U64, b.toNat = firstFit size.toNat l.spans 0x1000 ∧
      (Room l b.toNat size.toNat → ∃ pos, Fits l.spans pos b.toNat size.toNat ∧
        findAvailableRegion size l = some (pos, l.insert pos ⟨b, size, none⟩)) ∧
      (¬Room l b.toNat size.toNat → findAvailableRegion size l = none) := by
  obtain ⟨pos, b, hb, hfits', hloop⟩ := findLoop_spec hsize l.toList 0 0x1000#64 hl hfit
  have hfits : Fits l.spans pos b.toNat size.toNat := hfits'
  have hlen := length_spans l
  have hple := hfits.pos_le
  have hsum : (b + size).toNat = b.toNat + size.toNat := by
    rw [BitVec.toNat_add, Nat.mod_eq_of_lt (hb ▸ hfit)]
  refine ⟨b, hb, ?_⟩
  rw [KList.length_toList, Nat.zero_add] at hloop
  by_cases hpos : pos < l.size
  · rw [if_pos hpos] at hloop
    have hfind : findAvailableRegion size l = some (pos, l.insert pos ⟨b, size, none⟩) := by
      rw [findAvailableRegion, hloop]
    have hnext : l.spans[pos] ∈ l.spans.drop pos := by
      rw [List.drop_eq_getElem_cons (by omega)]
      exact List.mem_cons_self
    refine ⟨fun _ ↦ ⟨pos, hfits, hfind⟩, fun hnot ↦ absurd (.inr ?_) hnot⟩
    exact ⟨_, List.getElem_mem _, hfits.after _ hnext⟩
  · rw [if_neg hpos] at hloop
    have hend : pos = l.size := by
      rw [hlen] at hple
      omega
    have hnone : ¬∃ t ∈ l.spans, b.toNat + size.toNat ≤ t.lo := by
      rintro ⟨t, ht, hle⟩
      have h1 := hfits.before t (by rwa [hend, ← hlen, List.take_length])
      have h2 := hl.nonempty t ht
      omega
    have hfind : findAvailableRegion size l =
        if b.toNat + size.toNat < kernelVirtualBase.toNat then
          some (pos, l.insert pos ⟨b, size, none⟩) else none := by
      rw [findAvailableRegion, hloop]
      simp only [BitVec.lt_def, hsum]
      rw [KList.insert, if_pos hend, hend]
    simp only [Room, hnone, or_false]
    exact ⟨fun h ↦ ⟨pos, hfits, by rw [hfind, if_pos h]⟩, fun h ↦ by rw [hfind, if_neg h]⟩

/-- **`allocate_region_at` takes the interval exactly if it is free.** -/
theorem allocateRegionAt_spec {base size : U64} {l : Regions ω} (hl : Apart l.spans)
    (hsize : 0 < size.toNat) (hend : base.toNat + size.toNat < 2 ^ 64) :
    (∃ pos, Fits l.spans pos base.toNat size.toNat ∧
        allocateRegionAt base size l = some (pos, l.insert pos ⟨base, size, none⟩)) ∨
      ¬Free l.spans base.toNat size.toNat ∧ allocateRegionAt base size l = none := by
  have hlen := length_spans l
  rcases allocateAtLoop_spec hend l.toList 0 hl with ⟨pos, hfits, hloop⟩ | ⟨⟨r, hr, h1, h2⟩, hloop⟩
  · have hfits' : Fits l.spans pos base.toNat size.toNat := hfits
    have hple := hfits'.pos_le
    refine .inl ⟨pos, hfits', ?_⟩
    rw [KList.length_toList, Nat.zero_add] at hloop
    by_cases hpos : pos < l.size
    · rw [if_pos hpos] at hloop
      rw [allocateRegionAt, hloop]
    · have hpos' : pos = l.size := by
        rw [hlen] at hple
        omega
      have hlast : l.size = 0 ∨ (l.mem (l.size - 1)).endAddr ≤ base := by
        rcases Nat.eq_zero_or_pos l.size with h0 | h0
        · exact .inl h0
        · have hmem : l.mem (l.size - 1) ∈ l.toList :=
            List.mem_map_of_mem (List.mem_range.mpr (by omega))
          have hall : l.spans.take pos = l.spans := by rw [hpos', ← hlen, List.take_length]
          exact .inr (hfits'.before _ (by rw [hall]; exact List.mem_map_of_mem hmem))
      rw [if_neg hpos] at hloop
      rw [allocateRegionAt, hloop]
      simp only []
      rw [if_pos hlast, KList.insert, if_pos hpos', hpos']
  · refine .inr ⟨fun hfree ↦ ?_, by rw [allocateRegionAt, hloop]⟩
    have := (free_iff hl hsize).mp hfree r.span (List.mem_map_of_mem hr)
    omega

/-! ## Where a call puts its region -/

/-- What is left to do for a region at `b`, once its place in the list is found. -/
def mapAt (ops : VmOps κ ω) (make : κ → Except Halt (ω × κ)) (pos : Nat) (b size : U64)
    (l : Regions ω) (s : κ) : Except Halt (Option Nat × Regions ω × κ) := do
  let (obj, s) ← make s
  let s ← ops.mapAllocatedBlocks obj b (ops.addUse obj s)
  return (some pos, l.insert pos ⟨b, size, some obj⟩, s)

theorem mapInto_insert (ops : VmOps κ ω) (make : κ → Except Halt (ω × κ)) (pos : Nat) {b : U64}
    (hb : b ≠ 0#64) (size : U64) (l : Regions ω) (s : κ) :
    mapInto ops make pos (l.insert pos ⟨b, size, none⟩) s = mapAt ops make pos b size l s := by
  simp only [mapInto, KList.mem_insert_self, KList.modify_insert, if_neg hb, Region.setVmObject,
    mapAt]

/-- The request is for whole pages, as the two assertions ask. -/
theorem and_fff_eq_zero {x : U64} : x &&& 0xFFF#64 = 0#64 ↔ x.toNat % 4096 = 0 := by
  rw [← BitVec.toNat_inj, BitVec.toNat_and]
  show x.toNat &&& (2 ^ 12 - 1) = 0 ↔ _
  rw [Nat.and_two_pow_sub_one_eq_mod]

/-- No sum of the source wraps around: not the end of the interval asked for, and not the end of the
last candidate, if there is a search.  The candidates only move up. -/
structure SumsFit (l : Regions ω) (size base : U64) (fixed : Bool) : Prop where
  base_end : base ≠ 0#64 → base.toNat + size.toNat < 2 ^ 64
  candidate_end : fixed = false → ¬(base ≠ 0#64 ∧ Free l.spans base.toNat size.toNat) →
    firstFit size.toNat l.spans 0x1000 + size.toNat < 2 ^ 64

/-- A request for some pages on which no sum wraps around. -/
structure Request (l : Regions ω) (size base : U64) (fixed : Bool) : Prop extends
    SumsFit l size base fixed where
  size_pos : 0 < size.toNat
  size_aligned : size.toNat % 4096 = 0
  base_aligned : base.toNat % 4096 = 0

/-- A free interval that was asked for is taken. -/
theorem mapRegion_at_base (ops : VmOps κ ω) (make : κ → Except Halt (ω × κ)) {size base : U64}
    (fixed : Bool) {l : Regions ω} (s : κ) (hl : Apart l.spans) (hsize : 0 < size.toNat)
    (hsize' : size.toNat % 4096 = 0) (hbase' : base.toNat % 4096 = 0)
    (hend : base.toNat + size.toNat < 2 ^ 64) (hbase : base ≠ 0#64)
    (hfree : Free l.spans base.toNat size.toNat) :
    ∃ pos, Fits l.spans pos base.toNat size.toNat ∧
      mapRegion ops make size base fixed l s = mapAt ops make pos base size l s := by
  rcases allocateRegionAt_spec hl hsize hend with ⟨pos, hfits, hcall⟩ | ⟨hnot, -⟩
  · refine ⟨pos, hfits, ?_⟩
    rw [mapRegion, if_neg (not_not.mpr (and_fff_eq_zero.mpr hsize')),
      if_neg (not_not.mpr (and_fff_eq_zero.mpr hbase')), if_pos hbase, hcall]
    simp only [KList.modify_insert, Region.setVmObject]
    exact mapInto_insert ops make pos hbase size l s
  · exact absurd hfree hnot

/-- Without a free interval to take, the call goes on as if there had been no base. -/
theorem mapRegion_elsewhere (ops : VmOps κ ω) (make : κ → Except Halt (ω × κ)) {size base : U64}
    (fixed : Bool) {l : Regions ω} (s : κ) (hl : Apart l.spans) (hsize : 0 < size.toNat)
    (hsize' : size.toNat % 4096 = 0) (hbase' : base.toNat % 4096 = 0)
    (hend : base ≠ 0#64 → base.toNat + size.toNat < 2 ^ 64)
    (hnot : ¬(base ≠ 0#64 ∧ Free l.spans base.toNat size.toNat)) :
    mapRegion ops make size base fixed l s = mapElsewhere ops make size fixed l s := by
  have hnone : (if base ≠ 0#64 then allocateRegionAt base size l else none) = none := by
    by_cases hbase : base ≠ 0#64
    · rcases allocateRegionAt_spec hl hsize (hend hbase) with ⟨pos, hfits, -⟩ | ⟨-, hcall⟩
      · exact absurd ⟨hbase, hfits.free⟩ hnot
      · rw [if_pos hbase, hcall]
    · rw [if_neg hbase]
  rw [mapRegion, if_neg (not_not.mpr (and_fff_eq_zero.mpr hsize')),
    if_neg (not_not.mpr (and_fff_eq_zero.mpr hbase')), hnone]

/-- **The search**: the lowest free place from the second page on, or the assertion fails because
that place is at the end of the list and reaches into the kernel. -/
theorem mapElsewhere_first_fit (ops : VmOps κ ω) (make : κ → Except Halt (ω × κ)) {size : U64}
    {l : Regions ω} (s : κ) (hl : Apart l.spans) (hsize : 0 < size.toNat)
    (hfit : firstFit size.toNat l.spans 0x1000 + size.toNat < 2 ^ 64) :
    ∃ b : U64, IsLeast {b | 0x1000 ≤ b ∧ Free l.spans b size.toNat} b.toNat ∧
      b.toNat + size.toNat < 2 ^ 64 ∧
      (Room l b.toNat size.toNat → ∃ pos, Fits l.spans pos b.toNat size.toNat ∧
        mapElsewhere ops make size false l s = mapAt ops make pos b size l s) ∧
      (¬Room l b.toNat size.toNat →
        mapElsewhere ops make size false l s = .error .noRegion) := by
  obtain ⟨b, hb, hsome, hnone⟩ := findAvailableRegion_spec hl hsize hfit
  have hleast : IsLeast {b | 0x1000 ≤ b ∧ Free l.spans b size.toNat} b.toNat := by
    rw [hb]
    exact firstFit_isLeast hsize hl
  have hb0 : b ≠ 0#64 := by
    intro h0
    have := hleast.1.1
    rw [h0] at this
    exact absurd this (by decide)
  refine ⟨b, hleast, hb ▸ hfit, fun hroom ↦ ?_, fun hfull ↦ ?_⟩
  · obtain ⟨pos, hfits, hfind⟩ := hsome hroom
    refine ⟨pos, hfits, ?_⟩
    rw [mapElsewhere, if_neg Bool.false_ne_true, hfind]
    exact mapInto_insert ops make pos hb0 size l s
  · rw [mapElsewhere, if_neg Bool.false_ne_true, hnone hfull]

/-- A call that mapped a region has put it, and nothing else, into the list. -/
theorem mapAt_ok {ops : VmOps κ ω} {make : κ → Except Halt (ω × κ)} {pos : Nat} {b size : U64}
    {l l' : Regions ω} {s s' : κ} {r : Option Nat}
    (hcall : mapAt ops make pos b size l s = .ok (r, l', s')) :
    r = some pos ∧ ∃ obj, l' = l.insert pos ⟨b, size, some obj⟩ := by
  rw [mapAt] at hcall
  obtain ⟨⟨obj, s₁⟩, -, hcall⟩ := bind_eq_ok.mp hcall
  obtain ⟨s₂, -, hcall⟩ := bind_eq_ok.mp hcall
  cases hcall
  exact ⟨rfl, obj, rfl⟩

/-- The new region keeps the list in order. -/
theorem apart_insert {l : Regions ω} (hl : Apart l.spans) {pos : Nat} {b size : U64}
    (hsize : 0 < size.toNat) (hend : b.toNat + size.toNat < 2 ^ 64)
    (hfits : Fits l.spans pos b.toNat size.toNat) (obj : Option ω) :
    Apart (spans (l.insert pos ⟨b, size, obj⟩)) := by
  have hpos : pos ≤ l.size := length_spans l ▸ hfits.pos_le
  rw [spans, KList.toList_insert l hpos, List.map_insertIdx, Region.span_eq hend]
  exact hfits.apart hsize hl

/-! ## Runs -/

/-- The region of a call is put at `b`, in front of those it has to stand in front of, and with the
object the call made.  No other region changes. -/
def Obtains (ops : VmOps κ ω) (make : κ → Except Halt (ω × κ)) (size : U64) (l : Regions ω) (s : κ)
    (b : U64) (call : Except Halt (Option Nat × Regions ω × κ)) : Prop :=
  ∃ pos, (∀ obj, KList.toList (l.insert pos ⟨b, size, obj⟩) =
    l.toList.insertIdx pos ⟨b, size, obj⟩) ∧ call = mapAt ops make pos b size l s

/-- **What a call does**: it takes the interval it asks for if that is free.  Otherwise it gives up
if it has to, and takes the lowest free place if it may. -/
structure Places (ops : VmOps κ ω) (make : κ → Except Halt (ω × κ)) (size base : U64)
    (fixed : Bool) (l : Regions ω) (s : κ) (call : Except Halt (Option Nat × Regions ω × κ)) :
    Prop where
  at_base : base ≠ 0#64 → Free l.spans base.toNat size.toNat →
    Obtains ops make size l s base call
  only_if_free : base ≠ 0#64 → ∀ r l' s', call = .ok (r, l', s') →
    ((∃ pos, r = some pos ∧ (l'.mem pos).base = base ∧ (l'.mem pos).size = size) ↔
      Free l.spans base.toNat size.toNat)
  refused : ¬(base ≠ 0#64 ∧ Free l.spans base.toNat size.toNat) → fixed = true →
    call = .ok (none, l, s)
  first_fit : ¬(base ≠ 0#64 ∧ Free l.spans base.toNat size.toNat) → fixed = false →
    ∃ b : U64, IsLeast {b | 0x1000 ≤ b ∧ Free l.spans b size.toNat} b.toNat ∧
      (Room l b.toNat size.toNat → Obtains ops make size l s b call) ∧
      (¬Room l b.toNat size.toNat → call = .error .noRegion)

theorem mapAt_obtains {ops : VmOps κ ω} {make : κ → Except Halt (ω × κ)} {size : U64}
    {l : Regions ω} {s : κ} {b : U64} {pos : Nat} {call : Except Halt (Option Nat × Regions ω × κ)}
    (hfits : Fits l.spans pos b.toNat size.toNat)
    (hcall : call = mapAt ops make pos b size l s) : Obtains ops make size l s b call :=
  ⟨pos, fun _ ↦ KList.toList_insert l (length_spans l ▸ hfits.pos_le) _, hcall⟩

/-- A returned region is where the call put it. -/
theorem Obtains.region_eq {ops : VmOps κ ω} {make : κ → Except Halt (ω × κ)} {size : U64}
    {l l' : Regions ω} {s s' : κ} {b : U64} {r : Option Nat}
    (h : Obtains ops make size l s b (.ok (r, l', s'))) :
    ∃ pos, r = some pos ∧ (l'.mem pos).base = b ∧ (l'.mem pos).size = size := by
  obtain ⟨pos, -, hcall⟩ := h
  obtain ⟨rfl, obj, rfl⟩ := mapAt_ok hcall.symm
  exact ⟨pos, rfl, by rw [KList.mem_insert_self], by rw [KList.mem_insert_self]⟩

theorem mapRegion_places (ops : VmOps κ ω) (make : κ → Except Halt (ω × κ)) {size base : U64}
    {fixed : Bool} {l : Regions ω} (s : κ) (hl : Apart l.spans)
    (hreq : Request l size base fixed) :
    Places ops make size base fixed l s (mapRegion ops make size base fixed l s) := by
  obtain ⟨⟨hend, hfit⟩, hsize, hsize', hbase'⟩ := hreq
  have hat : base ≠ 0#64 → Free l.spans base.toNat size.toNat →
      Obtains ops make size l s base (mapRegion ops make size base fixed l s) := by
    intro hbase hfree
    obtain ⟨pos, hfits, hcall⟩ :=
      mapRegion_at_base ops make fixed s hl hsize hsize' hbase' (hend hbase) hbase hfree
    exact mapAt_obtains hfits hcall
  have hrefused : ¬(base ≠ 0#64 ∧ Free l.spans base.toNat size.toNat) → fixed = true →
      mapRegion ops make size base fixed l s = .ok (none, l, s) := by
    intro hnot hfixed
    rw [mapRegion_elsewhere ops make fixed s hl hsize hsize' hbase' hend hnot, mapElsewhere,
      if_pos hfixed]
  have hfirst : ¬(base ≠ 0#64 ∧ Free l.spans base.toNat size.toNat) → fixed = false →
      ∃ b : U64, IsLeast {b | 0x1000 ≤ b ∧ Free l.spans b size.toNat} b.toNat ∧
        (Room l b.toNat size.toNat →
          Obtains ops make size l s b (mapRegion ops make size base fixed l s)) ∧
        (¬Room l b.toNat size.toNat →
          mapRegion ops make size base fixed l s = .error .noRegion) := by
    intro hnot hfixed
    obtain ⟨b, hleast, -, hsome, hnone⟩ :=
      mapElsewhere_first_fit ops make s hl hsize (hfit hfixed hnot)
    rw [mapRegion_elsewhere ops make fixed s hl hsize hsize' hbase' hend hnot, hfixed]
    refine ⟨b, hleast, fun hroom ↦ ?_, hnone⟩
    obtain ⟨pos, hfits, hcall⟩ := hsome hroom
    exact mapAt_obtains hfits hcall
  refine ⟨hat, fun hbase r l' s' hcall ↦ ⟨?_, fun hfree ↦ ?_⟩, hrefused, hfirst⟩
  · -- a region at `base` was found there by the search, or not at all
    rintro ⟨pos, rfl, hregion, -⟩
    by_contra hbusy
    have hnot : ¬(base ≠ 0#64 ∧ Free l.spans base.toNat size.toNat) := fun h ↦ hbusy h.2
    cases hfixed : fixed with
    | true =>
      rw [hrefused hnot hfixed] at hcall
      cases hcall
    | false =>
      obtain ⟨b, hleast, hsome, hnone⟩ := hfirst hnot hfixed
      by_cases hroom : Room l b.toNat size.toNat
      · have hobt := hsome hroom
        rw [hcall] at hobt
        obtain ⟨pos', hpos, hbase', -⟩ := hobt.region_eq
        cases hpos
        rw [← hbase', hregion] at hleast
        exact hbusy hleast.1.2
      · rw [hnone hroom] at hcall
        cases hcall
  · have hobt := hat hbase hfree
    rw [hcall] at hobt
    exact hobt.region_eq

/-- The memory of the list takes one more region: there is a cell behind the last one, or `realloc`
finds one, and it holds a null handle. -/
def Takes (grows : Nat → Bool) (l : Regions ω) : Prop :=
  (l.capacity ≤ l.size → grows l.grownCapacity = true) ∧ (l.mem l.size).vmObject = none

theorem insertion_eq_through {grows : Nat → Bool} {l : Regions ω} :
    l.insertion (cells grows) = .through ↔ Takes grows l := by
  rw [KList.insertion_eq_through, Takes]
  exact and_congr_right fun _ ↦ Option.isNone_iff_eq_none

/-- Then a call is what it should be. -/
theorem onCells_of_takes {grows : Nat → Bool} {l : Regions ω} (h : Takes grows l)
    (call : Except Halt (Option Nat × Regions ω × κ)) : onCells grows l call = some call := by
  simp only [onCells, insertion_eq_through.mpr h]
  split <;> rfl

/-- **And only then**, if it puts a region into the list. -/
theorem onCells_eq_some_iff {grows : Nat → Bool} {l l' : Regions ω} {s' : κ} {pos : Nat}
    {call : Except Halt (Option Nat × Regions ω × κ)} (hcall : call = .ok (some pos, l', s')) :
    onCells grows l call = some call ↔ Takes grows l := by
  refine ⟨fun h ↦ insertion_eq_through.mp ?_, fun h ↦ onCells_of_takes h call⟩
  subst hcall
  simp only [onCells] at h
  split at h
  · next hthrough => exact hthrough
  · cases h
  · cases h

/-- What returns is a call that was what it should be. -/
theorem onCells_eq_ok {grows : Nat → Bool} {l : Regions ω} {r : Option Nat × Regions ω × κ}
    {call : Except Halt (Option Nat × Regions ω × κ)} (h : onCells grows l call = some (.ok r)) :
    call = .ok r := by
  simp only [onCells] at h
  split at h
  · split at h
    · exact Option.some.inj h
    · cases h
    · cases h
  · exact Option.some.inj h

/-- The runs of one address space: calls of `map_vmo` and `allocate_anonymous_vmo` that return, with
anything between them that happens to the objects. -/
inductive SpaceRun (grows : Nat → Bool) (ops : VmOps κ ω) (l₀ : Regions ω) (s₀ : κ) :
    Regions ω → κ → Prop
  | start : SpaceRun grows ops l₀ s₀ l₀ s₀
  | other {l : Regions ω} {s s' : κ} (hrun : SpaceRun grows ops l₀ s₀ l s) :
      SpaceRun grows ops l₀ s₀ l s'
  | mapVmo {l l' : Regions ω} {s s' : κ} {obj : ω} {base : U64} {fixed : Bool} {r : Option Nat}
      (hrun : SpaceRun grows ops l₀ s₀ l s) (hreq : Request l (ops.size s obj) base fixed)
      (hcall : onCells grows l (mapVmo ops obj base fixed l s) = some (.ok (r, l', s'))) :
      SpaceRun grows ops l₀ s₀ l' s'
  | anonymous {l l' : Regions ω} {s s' : κ} {size base : U64} {fixed : Bool} {r : Option Nat}
      (hrun : SpaceRun grows ops l₀ s₀ l s) (hreq : Request l size base fixed)
      (hcall : onCells grows l (allocateAnonymousVmo ops size base fixed l s) =
        some (.ok (r, l', s'))) :
      SpaceRun grows ops l₀ s₀ l' s'

/-- Every request is served as it should be. -/
structure Serves (grows : Nat → Bool) (ops : VmOps κ ω) (l : Regions ω) (s : κ) : Prop where
  mapVmo : ∀ obj base fixed, Request l (ops.size s obj) base fixed → ∃ call,
    onCells grows l (mapVmo ops obj base fixed l s) = some call ∧
      Places ops (fun s ↦ .ok (obj, s)) (ops.size s obj) base fixed l s call
  anonymous : ∀ size base fixed, Request l size base fixed → ∃ call,
    onCells grows l (allocateAnonymousVmo ops size base fixed l s) = some call ∧
      Places ops (ops.newAnonymous size) size base fixed l s call

/-- **One call** keeps the order, and every region. -/
theorem mapRegion_step {ops : VmOps κ ω} {make : κ → Except Halt (ω × κ)} {size base : U64}
    {fixed : Bool} {l l' : Regions ω} {s s' : κ} {r : Option Nat} (hl : Apart l.spans)
    (hreq : Request l size base fixed)
    (hcall : mapRegion ops make size base fixed l s = .ok (r, l', s')) :
    Apart l'.spans ∧ l.toList.Sublist l'.toList := by
  obtain ⟨⟨hend, hfit⟩, hsize, hsize', hbase'⟩ := hreq
  have hkeep : ∀ {pos : Nat} {b : U64}, Fits l.spans pos b.toNat size.toNat →
      b.toNat + size.toNat < 2 ^ 64 → mapAt ops make pos b size l s = .ok (r, l', s') →
      Apart l'.spans ∧ l.toList.Sublist l'.toList := by
    intro pos b hfits hb hat
    obtain ⟨-, obj, rfl⟩ := mapAt_ok hat
    refine ⟨apart_insert hl hsize hb hfits _, ?_⟩
    rw [KList.toList_insert l (length_spans l ▸ hfits.pos_le)]
    exact List.sublist_insertIdx ..
  by_cases hfree : base ≠ 0#64 ∧ Free l.spans base.toNat size.toNat
  · obtain ⟨pos, hfits, hat⟩ := mapRegion_at_base ops make fixed s hl hsize hsize' hbase'
      (hend hfree.1) hfree.1 hfree.2
    exact hkeep hfits (hend hfree.1) (hat ▸ hcall)
  · rw [mapRegion_elsewhere ops make fixed s hl hsize hsize' hbase' hend hfree] at hcall
    cases hfixed : fixed with
    | true =>
      rw [mapElsewhere, if_pos hfixed] at hcall
      cases hcall
      exact ⟨hl, List.Sublist.refl _⟩
    | false =>
      rw [hfixed] at hcall
      obtain ⟨b, -, hb, hsome, hnone⟩ :=
        mapElsewhere_first_fit ops make s hl hsize (hfit hfixed hfree)
      by_cases hroom : Room l b.toNat size.toNat
      · obtain ⟨pos, hfits, hat⟩ := hsome hroom
        exact hkeep hfits hb (hat ▸ hcall)
      · rw [hnone hroom] at hcall
        cases hcall

/-- **Every run** keeps the order, and every region. -/
theorem spaceRun_apart {grows : Nat → Bool} {ops : VmOps κ ω} {l₀ l : Regions ω} {s₀ s : κ}
    (hl : Apart l₀.spans) (hrun : SpaceRun grows ops l₀ s₀ l s) :
    Apart l.spans ∧ l₀.toList.Sublist l.toList := by
  induction hrun with
  | start => exact ⟨hl, List.Sublist.refl _⟩
  | other _ ih => exact ih
  | mapVmo _ hreq hcall ih =>
    obtain ⟨hapart, hsub⟩ := mapRegion_step ih.1 hreq (onCells_eq_ok hcall)
    exact ⟨hapart, ih.2.trans hsub⟩
  | anonymous _ hreq hcall ih =>
    obtain ⟨hapart, hsub⟩ := mapRegion_step ih.1 hreq (onCells_eq_ok hcall)
    exact ⟨hapart, ih.2.trans hsub⟩

/-- `address_to_region` finds the one region with an object that contains the address. -/
theorem addressToRegion_eq_some {l : Regions ω} (hl : Apart l.spans) {address : U64} {i : Nat} :
    addressToRegion address l = some i ↔ ∃ r, l.toList[i]? = some r ∧ r.vmObject.isSome ∧
      r.span.Contains address.toNat := by
  have htest : ∀ r : Region ω, (r.vmObject.isSome && decide (r.base ≤ address) &&
      decide (address < r.endAddr)) = true ↔
        r.vmObject.isSome ∧ r.span.Contains address.toNat := by
    intro r
    rw [Bool.and_eq_true, Bool.and_eq_true, decide_eq_true_iff, decide_eq_true_iff, and_assoc]
    rfl
  rw [addressToRegion, List.findIdx?_eq_some_iff_getElem]
  constructor
  · rintro ⟨hi, hr, -⟩
    exact ⟨_, List.getElem?_eq_getElem hi, (htest _).mp hr⟩
  · rintro ⟨r, hr, hobj, hin⟩
    obtain ⟨hi, rfl⟩ := List.getElem?_eq_some_iff.mp hr
    refine ⟨hi, (htest _).mpr ⟨hobj, hin⟩, fun j hj hbefore ↦ ?_⟩
    -- an earlier region that contains the address as well would be the same one
    have hspan : ∀ {n : Nat} (hn : n < l.toList.length), l.spans[n]? = some l.toList[n].span := by
      intro n hn
      rw [spans, List.getElem?_map, List.getElem?_eq_getElem hn, Option.map_some]
    have := hl.unique (hspan (hj.trans hi)) (hspan hi) ((htest _).mp hbefore).2 hin
    omega

/-- Objects that are nothing but their size. -/
def sizeOps : VmOps Unit U64 where
  size := fun _ n ↦ n
  addUse := fun _ s ↦ s
  mapAllocatedBlocks := fun _ _ s ↦ .ok s
  newAnonymous := fun n s ↦ .ok (n, s)

/-- The list with one page in it, from address 0x5000 on. -/
def onePage : Regions U64 :=
  KList.insert (empty fun _ ↦ ⟨0#64, 0#64, none⟩) 0 ⟨0x5000#64, 0x1000#64, some 0x1000#64⟩

theorem spans_onePage : onePage.spans = [⟨0x5000, 0x6000⟩] := rfl

theorem onePage_run :
    SpaceRun (fun _ ↦ true) sizeOps (empty fun _ ↦ ⟨0#64, 0#64, none⟩) () onePage () := by
  have hreq : Request (empty fun _ ↦ (⟨0#64, 0#64, none⟩ : Region U64)) 0x1000#64 0x5000#64 true :=
    ⟨⟨fun _ ↦ by decide, fun h ↦ by cases h⟩, by decide, by decide, by decide⟩
  have hempty : Apart (empty fun _ ↦ (⟨0#64, 0#64, none⟩ : Region U64)).spans := apart_nil
  obtain ⟨pos, hfits, hcall⟩ := mapRegion_at_base sizeOps (sizeOps.newAnonymous 0x1000#64) true ()
    hempty hreq.size_pos hreq.size_aligned hreq.base_aligned (hreq.base_end (by decide)) (by decide)
    fun s hs ↦ by cases hs
  have hpos : pos = 0 := Nat.le_zero.mp hfits.pos_le
  rw [hpos] at hcall
  have htakes : Takes (fun _ ↦ true) (empty fun _ ↦ (⟨0#64, 0#64, none⟩ : Region U64)) :=
    ⟨fun _ ↦ rfl, rfl⟩
  exact .anonymous .start hreq ((onCells_of_takes htakes _).trans (congrArg some (hcall.trans rfl)))

/-- Every byte of the range is in a region. -/
def Mapped (l : Regions ω) (base size : U64) : Prop :=
  ∀ a, base.toNat ≤ a → a < base.toNat + size.toNat → ∃ r ∈ l.toList, r.span.Contains a

/-- The test looks at the start of the first region, and at nothing else. -/
theorem rangeInRegionLoop_cons (r : Region ω) (rs : List (Region ω)) (base : U64) :
    rangeInRegionLoop (r :: rs) base = decide (r.base ≤ base) := by
  simp only [rangeInRegionLoop, BitVec.le_def, BitVec.lt_def]
  by_cases h : base.toNat < r.base.toNat
  · rw [if_pos h, decide_eq_false (by omega)]
  · rw [if_neg h, decide_eq_true (by omega)]
    by_cases hin : r.base.toNat ≤ base.toNat ∧ base.toNat ≤ r.endAddr.toNat
    · rw [if_pos hin, if_pos le_rfl]
    · rw [if_neg hin, if_pos (by omega)]

/-- In a list sorted by base that is the test whether any region starts at or below the range. -/
theorem rangeInRegion_iff {l : Regions ω} (hl : l.spans.Pairwise fun s t ↦ s.lo ≤ t.lo)
    (base size : U64) : rangeInRegion base size l = true ↔ ∃ r ∈ l.toList, r.base ≤ base := by
  rw [rangeInRegion]
  rw [spans] at hl
  cases hlist : l.toList with
  | nil => simp [rangeInRegionLoop]
  | cons r rs =>
    rw [hlist, List.map_cons, List.pairwise_cons] at hl
    rw [rangeInRegionLoop_cons, decide_eq_true_iff]
    constructor
    · exact fun h ↦ ⟨r, List.mem_cons_self, h⟩
    · rintro ⟨t, ht, hle⟩
      rcases List.mem_cons.mp ht with rfl | ht
      · exact hle
      · have hfirst : r.base.toNat ≤ t.base.toNat := hl.1 t.span (List.mem_map_of_mem ht)
        exact Nat.le_trans hfirst hle

/-- The range is mapped as far as regions follow each other without a gap. -/
theorem mapped_iff {l : Regions ω} (hl : l.spans.Pairwise fun s t ↦ s.lo ≤ t.lo)
    (base size : U64) :
    Mapped l base size ↔ base.toNat + size.toNat ≤ coveredTo l.spans base.toNat := by
  rw [← covers_iff_coveredTo hl, Mapped, spans]
  simp only [List.mem_map, exists_exists_and_eq_and]

/-- **When the check of a user pointer is right**: exactly if no region starts at or below it, so
that it is refused, or the regions from it on follow each other without a gap to the end of the
range. -/
theorem range_in_region_iff {l : Regions ω} (hl : l.spans.Pairwise fun s t ↦ s.lo ≤ t.lo)
    {base size : U64} (hsize : 1 ≤ size.toNat) :
    ((rangeInRegion base size l = true ↔ Mapped l base size) ∧
      (checkUsermodePointer base size l = true ↔ Mapped l base size)) ↔
    ((∀ r ∈ l.toList, base < r.base) ∨
      base.toNat + size.toNat ≤ coveredTo l.spans base.toNat) := by
  rw [checkUsermodePointer, and_self_iff, rangeInRegion_iff hl, mapped_iff hl]
  have hnone : (∀ r ∈ l.toList, base < r.base) ↔ ¬∃ r ∈ l.toList, r.base ≤ base := by
    simp only [not_exists, not_and, BitVec.not_le]
  rw [hnone]
  constructor
  · intro h
    by_cases hsome : ∃ r ∈ l.toList, r.base ≤ base
    · exact .inr (h.mp hsome)
    · exact .inl hsome
  · rintro (hnot | hcov)
    · -- with every region above it, the range is not mapped either
      have hlo : ∀ t ∈ l.spans, base.toNat < t.lo := by
        intro t ht
        obtain ⟨r, hr, rfl⟩ := List.mem_map.mp ht
        exact hnone.mpr hnot r hr
      rw [coveredTo_of_lt hlo]
      exact ⟨fun h ↦ absurd h hnot, fun h ↦ by omega⟩
    · refine ⟨fun _ ↦ hcov, fun _ ↦ ?_⟩
      obtain ⟨r, hr, hin⟩ := (mapped_iff hl base size).mpr hcov base.toNat le_rfl (by omega)
      exact ⟨r, hr, hin.1⟩

theorem range_in_region_iff_one_page :
    (rangeInRegion 0x5000#64 0x1000#64 onePage = true ↔ Mapped onePage 0x5000#64 0x1000#64) ∧
      (checkUsermodePointer 0x5000#64 0x1000#64 onePage = true ↔
        Mapped onePage 0x5000#64 0x1000#64) :=
  (range_in_region_iff (by rw [spans_onePage]; exact List.pairwise_singleton _ _)
    (by decide)).mpr (.inr (by rw [spans_onePage]; decide))

/-- **A kernel address passes the check** in a process with one page, which lies below it. -/
theorem kernel_pointer_accepted : Apart onePage.spans ∧
    rangeInRegion kernelVirtualBase 8#64 onePage = true ∧
    checkUsermodePointer kernelVirtualBase 8#64 onePage = true ∧
    ¬Mapped onePage kernelVirtualBase 8#64 := by
  have hapart : Apart onePage.spans := by
    rw [spans_onePage]
    exact apart_nil.cons (by decide) (by simp)
  refine ⟨hapart, by decide, by decide, fun h ↦ ?_⟩
  rw [mapped_iff (by rw [spans_onePage]; exact List.pairwise_singleton _ _), spans_onePage] at h
  exact absurd h (by decide)

end Regions
end Borrrdex
