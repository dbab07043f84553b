import Mathlib.Tactic
import Borrrdex.Memory.Windows

/-!
# Scanning the PCI buses

`pci::initialize` scans the buses of a segment from bus 0 on.  The configuration space of a bus is a
megabyte, that of each of its 32 devices has eight functions of a page, and a function that is a
bridge leads to another bus.  `scan_bus` takes the address of a bus: for the bus behind a bridge it
adds to the address of the bridge's own bus, which is right on bus 0 only, and it does not look
whether function 0 is a bridge.

`lists_of_suits` says that a segment whose bridges are on bus 0, none of them at function 0, is
scanned as it should be.  `get_io_mapping` does not support addresses from 4 GiB on.
-/

set_option autoImplicit false

namespace Borrrdex.Pci

/-- What is looked at of a `pci_header_t`, and of a `pci_to_pci_bridge_t`. -/
structure Header where
  deviceId : BitVec 16
  subclass : Byte
  classCode : Byte
  headerType : Byte
  secondaryBus : Byte
  deriving DecidableEq

/-- `device_exists`. -/
def Header.deviceExists (h : Header) : Bool := h.deviceId != 0xffff && h.deviceId != 0

/-- The device has more functions than function 0. -/
def Header.multiFunction (h : Header) : Bool := h.headerType &&& 0x80 != 0

/-- The function is a bridge from a bus to another. -/
def Header.isBridge (h : Header) : Bool := h.classCode == 6 && h.subclass == 4

/-- The configuration space in physical memory, and what is at the address that `get_io_mapping`
returns for what it does not support. -/
structure Machine where
  config : U64 → Header
  stray : Header

/-- What is read at `get_io_mapping(addr)`. -/
def Machine.header (m : Machine) (addr : U64) : Header :=
  if addr > 0xFFFFFFFF#64 then m.stray else m.config addr

/-- A loop that adds to `devices`, and may fail to end. -/
def forEach {ι α : Type} : List ι → (ι → Option (List α)) → Option (List α)
  | [], _ => some []
  | i :: is, body =>
    (body i).bind fun added ↦ (forEach is body).map (added ++ ·)

/-- A function but function 0, with what `scan_bus` does for the bus behind a bridge. -/
def scanFunction (m : Machine) (scan : U64 → Option (List U64)) (base addr : U64) (f : ℕ) :
    Option (List U64) :=
  let sub := addr + BitVec.ofNat 64 (f * 0x1000)
  let h := m.header sub
  if h.deviceExists = false then some []
  else if h.isBridge then scan (base + BitVec.ofNat 64 (h.secondaryBus.toNat * 0x100000))
  else some [getIoMapping sub]

/-- A device. -/
def scanDevice (m : Machine) (scan : U64 → Option (List U64)) (base : U64) (i : ℕ) :
    Option (List U64) :=
  let addr := base + BitVec.ofNat 64 (i * 0x8000)
  let h := m.header addr
  if h.deviceExists = false then some []
  else if h.multiFunction then
    (forEach (List.range' 1 7) (scanFunction m scan base addr)).map (getIoMapping addr :: ·)
  else some [getIoMapping addr]

/-- `scan_bus`, to so many levels. -/
def scanBus (m : Machine) : ℕ → U64 → Option (List U64)
  | 0, _ => none
  | levels + 1, base => forEach (List.range 32) (scanDevice m (scanBus m levels) base)

/-- What `pci::initialize` looks at of an `mcfg_config_entry_t`. -/
structure McfgEntry where
  baseAddress : U64
  segmentGroupNo : BitVec 16
  startBusNo : Byte
  endBusNo : Byte

/-- An entry of the MCFG. -/
def scanEntry (m : Machine) (levels : ℕ) (entry : McfgEntry) : Option (List U64) :=
  if entry.startBusNo = entry.endBusNo then some []
  else if entry.segmentGroupNo > 0 then some []
  else scanBus m levels entry.baseAddress

/-- `pci::initialize`, with the entries of the MCFG: it leaves `devices`. -/
def initializePci (m : Machine) (levels : ℕ) (entries : List McfgEntry) : Option (List U64) :=
  forEach entries (scanEntry m levels)

/-! ## A segment -/

section Segment

variable (m : Machine) (base : U64)

/-- Where the configuration space of a function is. -/
def functionAddr (b d f : ℕ) : U64 :=
  base + BitVec.ofNat 64 (b * 0x100000) + BitVec.ofNat 64 (d * 0x8000) +
    BitVec.ofNat 64 (f * 0x1000)

/-- The header of a function. -/
def functionHeader (b d f : ℕ) : Header := m.config (functionAddr base b d f)

/-- **The device has the function.** -/
def HasFunction (b d f : ℕ) : Prop :=
  d < 32 ∧ f < 8 ∧ (functionHeader m base b d 0).deviceExists = true ∧
    (f ≠ 0 → (functionHeader m base b d 0).multiFunction = true ∧
      (functionHeader m base b d f).deviceExists = true)

instance (b d f : ℕ) : Decidable (HasFunction m base b d f) :=
  inferInstanceAs (Decidable (_ ∧ _ ∧ _ ∧ _))

/-- A bridge leads to a bus. -/
def LeadsTo (b d f s : ℕ) : Prop :=
  HasFunction m base b d f ∧ (functionHeader m base b d f).isBridge = true ∧
    (functionHeader m base b d f).secondaryBus.toNat = s

/-- **The buses that are reachable from bus 0.** -/
inductive Reachable : ℕ → Prop
  | root : Reachable 0
  | bridge {b d f s : ℕ} (h : Reachable b) (hleads : LeadsTo m base b d f s) : Reachable s

/-- **The buses form a tree**: no bridge leads to bus 0, and to each bus leads one
bridge at most. -/
structure IsTree : Prop where
  root : ∀ {b d f : ℕ}, Reachable m base b → ¬ LeadsTo m base b d f 0
  unique : ∀ {b d f b' d' f' s : ℕ}, Reachable m base b → Reachable m base b' →
    LeadsTo m base b d f s → LeadsTo m base b' d' f' s → b = b' ∧ d = d' ∧ f = f'

end Segment

/-- **The segment is listed**: the scan ends, and each function that is not a bridge, of a bus that
is reachable, is in the list once. -/
def Lists (m : Machine) (entry : McfgEntry) : Prop :=
  ∃ levels devices, initializePci m levels [entry] = some devices ∧
    ∀ b d f, Reachable m entry.baseAddress b → HasFunction m entry.baseAddress b d f →
      (functionHeader m entry.baseAddress b d f).isBridge = false →
        devices.count (getIoMapping (functionAddr entry.baseAddress b d f)) = 1

/-- **What a segment has to be.** -/
structure Suits (m : Machine) (entry : McfgEntry) : Prop where
  scanned : entry.startBusNo ≠ entry.endBusNo ∧ entry.segmentGroupNo = 0
  /-- `get_io_mapping` supports it. -/
  below : ∀ b, Reachable m entry.baseAddress b →
    entry.baseAddress.toNat + b * 0x100000 + 0x100000 ≤ 2 ^ 32
  /-- The bridges are on bus 0, but not at function 0. -/
  flat : ∀ b d f s, Reachable m entry.baseAddress b → LeadsTo m entry.baseAddress b d f s →
    b = 0 ∧ f ≠ 0

/-! ## The loops -/

theorem forEach_eq {ι α : Type} {is : List ι} {body : ι → Option (List α)} {added : ι → List α}
    (h : ∀ i ∈ is, body i = some (added i)) : forEach is body = some (is.flatMap added) := by
  induction is with
  | nil => rfl
  | cons i is ih =>
    rw [forEach, h i (List.mem_cons_self ..), ih fun j hj ↦ h j (List.mem_cons_of_mem _ hj),
      List.flatMap_cons]
    rfl

variable {m : Machine} {entry : McfgEntry}

theorem toNat_functionAddr {base : U64} {b d f : ℕ}
    (hb : base.toNat + b * 0x100000 + 0x100000 ≤ 2 ^ 32)
    (hd : d < 32) (hf : f < 8) :
    (functionAddr base b d f).toNat = base.toNat + b * 0x100000 + d * 0x8000 + f * 0x1000 := by
  rw [functionAddr, BitVec.toNat_add, BitVec.toNat_add, BitVec.toNat_add, BitVec.toNat_ofNat,
    BitVec.toNat_ofNat, BitVec.toNat_ofNat]
  omega

/-- A function of a bus below 4 GiB is read where it is. -/
theorem header_functionAddr {base : U64} {b d f : ℕ}
    (hb : base.toNat + b * 0x100000 + 0x100000 ≤ 2 ^ 32) (hd : d < 32) (hf : f < 8) :
    m.header (functionAddr base b d f) = functionHeader m base b d f := by
  rw [Machine.header, if_neg]
  · rfl
  · rw [gt_iff_lt, BitVec.lt_def, toNat_functionAddr hb hd hf]
    have hmax : (0xFFFFFFFF#64).toNat = 2 ^ 32 - 1 := rfl
    omega

/-- **Functions have different places.** -/
theorem functionAddr_inj {base : U64} {b d f b' d' f' : ℕ}
    (hb : base.toNat + b * 0x100000 + 0x100000 ≤ 2 ^ 32) (hd : d < 32) (hf : f < 8)
    (hb' : base.toNat + b' * 0x100000 + 0x100000 ≤ 2 ^ 32) (hd' : d' < 32) (hf' : f' < 8)
    (h : getIoMapping (functionAddr base b d f) = getIoMapping (functionAddr base b' d' f')) :
    b = b' ∧ d = d' ∧ f = f' := by
  have haddr := toNat_functionAddr hb hd hf
  have haddr' := toNat_functionAddr hb' hd' hf'
  have hmap := congrArg BitVec.toNat h
  rw [toNat_getIoMapping (by omega), toNat_getIoMapping (by omega)] at hmap
  omega

/-! ## A bus -/

/-- Where the configuration space of a bus is. -/
def busAddr (base : U64) (b : ℕ) : U64 := base + BitVec.ofNat 64 (b * 0x100000)

/-- What is added for a function, if so much is for the bus behind a bridge. -/
def listedFunction (m : Machine) (base : U64) (behind : ℕ → List U64) (b d f : ℕ) : List U64 :=
  if HasFunction m base b d f then
    if f ≠ 0 ∧ (functionHeader m base b d f).isBridge = true then
      behind (functionHeader m base b d f).secondaryBus.toNat
    else [getIoMapping (functionAddr base b d f)]
  else []

/-- What is added for a bus. -/
def listedBus (m : Machine) (base : U64) (behind : ℕ → List U64) (b : ℕ) : List U64 :=
  (List.range 32).flatMap fun d ↦ (List.range 8).flatMap (listedFunction m base behind b d)

theorem functionAddr_zero (base : U64) (b d : ℕ) :
    busAddr base b + BitVec.ofNat 64 (d * 0x8000) = functionAddr base b d 0 := by
  rw [functionAddr, busAddr, Nat.zero_mul]
  exact (BitVec.add_zero _).symm

theorem functionAddr_eq (base : U64) (b d f : ℕ) :
    functionAddr base b d 0 + BitVec.ofNat 64 (f * 0x1000) = functionAddr base b d f := by
  rw [← functionAddr_zero]
  rfl

section Bus

variable {base : U64} {b : ℕ} {scan : U64 → Option (List U64)} {behind : ℕ → List U64}

/-- **A device is scanned**, if the buses behind its bridges are. -/
theorem scanDevice_eq (hb : base.toNat + b * 0x100000 + 0x100000 ≤ 2 ^ 32) {d : ℕ} (hd : d < 32)
    (hscan : ∀ f s, f ≠ 0 → LeadsTo m base b d f s →
      scan (busAddr base b + BitVec.ofNat 64 (s * 0x100000)) = some (behind s)) :
    scanDevice m scan (busAddr base b) d =
      some ((List.range 8).flatMap (listedFunction m base behind b d)) := by
  have hfunctions : List.range 8 = 0 :: List.range' 1 7 := rfl
  rw [scanDevice, functionAddr_zero, header_functionAddr hb hd (by decide), hfunctions,
    List.flatMap_cons]
  cases hexists : (functionHeader m base b d 0).deviceExists with
  | false =>
    have hnone : ∀ f, listedFunction m base behind b d f = [] :=
      fun f ↦ if_neg fun h ↦ by simp [h.2.2.1] at hexists
    rw [if_pos rfl, hnone 0, List.nil_append, List.flatMap_eq_nil_iff.mpr fun f _ ↦ hnone f]
  | true =>
    have hzero : listedFunction m base behind b d 0 = [getIoMapping (functionAddr base b d 0)] := by
      rw [listedFunction, if_pos ⟨hd, by decide, hexists, fun h ↦ absurd rfl h⟩,
        if_neg fun h ↦ h.1 rfl]
    rw [if_neg (by decide), hzero]
    cases hmulti : (functionHeader m base b d 0).multiFunction with
    | false =>
      have hnone : ∀ f ∈ List.range' 1 7, listedFunction m base behind b d f = [] := by
        intro f hf
        rw [List.mem_range'_1] at hf
        refine if_neg fun h ↦ ?_
        have := (h.2.2.2 (by omega)).1
        simp [this] at hmulti
      rw [if_neg (by decide), List.flatMap_eq_nil_iff.mpr hnone, List.append_nil]
    | true =>
      have hall : ∀ f ∈ List.range' 1 7,
          scanFunction m scan (busAddr base b) (functionAddr base b d 0) f =
            some (listedFunction m base behind b d f) := by
        intro f hf
        rw [List.mem_range'_1] at hf
        have hne : f ≠ 0 := by omega
        have hlt : f < 8 := by omega
        rw [scanFunction, functionAddr_eq, header_functionAddr hb hd hlt]
        split_ifs with hno hbridge
        · rw [listedFunction, if_neg fun h ↦ by simp [(h.2.2.2 hne).2] at hno]
        · have hhas : HasFunction m base b d f :=
            ⟨hd, hlt, hexists, fun _ ↦ ⟨hmulti, by simpa using hno⟩⟩
          rw [listedFunction, if_pos hhas, if_pos ⟨hne, hbridge⟩]
          exact hscan f _ hne ⟨hhas, hbridge, rfl⟩
        · rw [listedFunction, if_pos ⟨hd, hlt, hexists, fun _ ↦ ⟨hmulti, by simpa using hno⟩⟩,
            if_neg fun h ↦ hbridge h.2]
      rw [if_pos rfl, forEach_eq hall]
      rfl

/-- **A bus is scanned**, if the buses behind its bridges are. -/
theorem scanBus_eq (levels : ℕ) (behind : ℕ → List U64)
    (hb : base.toNat + b * 0x100000 + 0x100000 ≤ 2 ^ 32)
    (hscan : ∀ d f s, f ≠ 0 → LeadsTo m base b d f s →
      scanBus m levels (busAddr base b + BitVec.ofNat 64 (s * 0x100000)) = some (behind s)) :
    scanBus m (levels + 1) (busAddr base b) = some (listedBus m base behind b) := by
  rw [scanBus]
  exact forEach_eq fun d hd ↦ scanDevice_eq hb (List.mem_range.mp hd) (hscan d)

/-- A function is listed in one place of the loops. -/
theorem nodup_flatMap_flatMap {added : ℕ → ℕ → List U64} {n k : ℕ}
    (hnodup : ∀ d < n, ∀ f < k, (added d f).Nodup)
    (hone : ∀ d < n, ∀ f < k, ∀ d' < n, ∀ f' < k, ∀ p, p ∈ added d f → p ∈ added d' f' →
      d = d' ∧ f = f') :
    ((List.range n).flatMap fun d ↦ (List.range k).flatMap (added d)).Nodup := by
  refine List.nodup_flatMap.mpr ⟨fun d hd ↦ List.nodup_flatMap.mpr ⟨fun f hf ↦ ?_, ?_⟩, ?_⟩
  · exact hnodup d (List.mem_range.mp hd) f (List.mem_range.mp hf)
  · refine List.nodup_range.pairwise_of_forall_ne fun f hf f' hf' hne p hp hp' ↦ hne ?_
    rw [List.mem_range] at hd hf hf'
    exact (hone d hd f hf d hd f' hf' p hp hp').2
  · refine List.nodup_range.pairwise_of_forall_ne fun d hd d' hd' hne p hp hp' ↦ hne ?_
    obtain ⟨f, hf, hmem⟩ := List.mem_flatMap.mp hp
    obtain ⟨f', hf', hmem'⟩ := List.mem_flatMap.mp hp'
    rw [List.mem_range] at hd hd' hf hf'
    exact (hone d hd f hf d' hd' f' hf' p hmem hmem').1

end Bus

/-! ## The segment -/

theorem busAddr_zero (base : U64) : busAddr base 0 = base := by
  rw [busAddr, Nat.zero_mul]
  exact BitVec.add_zero base

/-- A bus is bus 0, or behind a bridge of it. -/
theorem Suits.reachable_cases (hsuits : Suits m entry) {b : ℕ}
    (hb : Reachable m entry.baseAddress b) :
    b = 0 ∨ ∃ d f, f ≠ 0 ∧ LeadsTo m entry.baseAddress 0 d f b := by
  cases hb with
  | root => exact Or.inl rfl
  | bridge hb' hleads =>
    obtain ⟨rfl, hf⟩ := hsuits.flat _ _ _ _ hb' hleads
    exact Or.inr ⟨_, _, hf, hleads⟩

/-- What is listed for a bus behind a bridge. -/
def listedLeaf (m : Machine) (entry : McfgEntry) (b : ℕ) : List U64 :=
  listedBus m entry.baseAddress (fun _ ↦ []) b

/-- What is listed for the segment. -/
def listedSegment (m : Machine) (entry : McfgEntry) : List U64 :=
  listedBus m entry.baseAddress (listedLeaf m entry) 0

/-- A function of a bus behind a bridge. -/
theorem mem_listedFunction_nil {base : U64} {b d f : ℕ} {p : U64}
    (hp : p ∈ listedFunction m base (fun _ ↦ []) b d f) :
    HasFunction m base b d f ∧ p = getIoMapping (functionAddr base b d f) := by
  rw [listedFunction] at hp
  split_ifs at hp with hhas hbridge
  · exact absurd hp List.not_mem_nil
  · exact ⟨hhas, List.mem_singleton.mp hp⟩
  · exact absurd hp List.not_mem_nil

/-- A bus behind a bridge has no bridges. -/
theorem Suits.mem_listedLeaf (hsuits : Suits m entry) {b : ℕ} (hb : Reachable m entry.baseAddress b)
    (hpos : b ≠ 0) {p : U64} :
    p ∈ listedLeaf m entry b ↔ ∃ d f, HasFunction m entry.baseAddress b d f ∧
      p = getIoMapping (functionAddr entry.baseAddress b d f) := by
  have hcell : ∀ d f, p ∈ listedFunction m entry.baseAddress (fun _ ↦ []) b d f ↔
      HasFunction m entry.baseAddress b d f ∧
        p = getIoMapping (functionAddr entry.baseAddress b d f) := by
    intro d f
    refine ⟨mem_listedFunction_nil, fun h ↦ ?_⟩
    rw [listedFunction, if_pos h.1, if_neg, h.2]
    · exact List.mem_singleton_self _
    · exact fun hbridge ↦ hpos (hsuits.flat b d f _ hb ⟨h.1, hbridge.2, rfl⟩).1
  simp only [listedLeaf, listedBus, List.mem_flatMap, List.mem_range, hcell]
  refine ⟨?_, ?_⟩
  · rintro ⟨d, -, f, -, h⟩
    exact ⟨d, f, h⟩
  · rintro ⟨d, f, h⟩
    exact ⟨d, h.1.1, f, h.1.2.1, h⟩

/-- **What is added for a function of bus 0** is a function of it, or the functions behind it. -/
theorem Suits.mem_listedFunction (hsuits : Suits m entry) (htree : IsTree m entry.baseAddress)
    {d f : ℕ} {p : U64}
    (hp : p ∈ listedFunction m entry.baseAddress (listedLeaf m entry) 0 d f) :
    ∃ b' d' f', Reachable m entry.baseAddress b' ∧ HasFunction m entry.baseAddress b' d' f' ∧
      p = getIoMapping (functionAddr entry.baseAddress b' d' f') ∧
      (b' = 0 ∧ d' = d ∧ f' = f ∨ b' ≠ 0 ∧ LeadsTo m entry.baseAddress 0 d f b') := by
  rw [listedFunction] at hp
  split_ifs at hp with hhas hbridge
  · have hleads : LeadsTo m entry.baseAddress 0 d f _ := ⟨hhas, hbridge.2, rfl⟩
    have hreach : Reachable m entry.baseAddress _ := .bridge .root hleads
    have hpos : (functionHeader m entry.baseAddress 0 d f).secondaryBus.toNat ≠ 0 := by
      intro hzero
      rw [hzero] at hleads
      exact htree.root .root hleads
    obtain ⟨d', f', hhas', heq⟩ := (hsuits.mem_listedLeaf hreach hpos).mp hp
    exact ⟨_, d', f', hreach, hhas', heq, Or.inr ⟨hpos, hleads⟩⟩
  · exact ⟨0, d, f, .root, hhas, List.mem_singleton.mp hp, Or.inl ⟨rfl, rfl, rfl⟩⟩
  · exact absurd hp List.not_mem_nil

/-- A place tells the function. -/
theorem Suits.inj (hsuits : Suits m entry) {b d f b' d' f' : ℕ}
    (hb : Reachable m entry.baseAddress b) (hb' : Reachable m entry.baseAddress b')
    (h : HasFunction m entry.baseAddress b d f) (h' : HasFunction m entry.baseAddress b' d' f')
    (heq : getIoMapping (functionAddr entry.baseAddress b d f) =
      getIoMapping (functionAddr entry.baseAddress b' d' f')) : b = b' ∧ d = d' ∧ f = f' :=
  functionAddr_inj (hsuits.below b hb) h.1 h.2.1 (hsuits.below b' hb') h'.1 h'.2.1 heq

theorem Suits.nodup_listedLeaf (hsuits : Suits m entry) {b : ℕ}
    (hb : Reachable m entry.baseAddress b) : (listedLeaf m entry b).Nodup := by
  refine nodup_flatMap_flatMap (fun d _ f _ ↦ ?_) fun d _ f _ d' _ f' _ p hp hp' ↦ ?_
  · rw [listedFunction]
    split_ifs
    · exact List.nodup_nil
    · exact List.nodup_singleton _
    · exact List.nodup_nil
  · obtain ⟨hhas, heq⟩ := mem_listedFunction_nil hp
    obtain ⟨hhas', heq'⟩ := mem_listedFunction_nil hp'
    exact (hsuits.inj hb hb hhas hhas' (heq.symm.trans heq')).2

/-- **Nothing is listed twice.** -/
theorem Suits.nodup_listedSegment (hsuits : Suits m entry) (htree : IsTree m entry.baseAddress) :
    (listedSegment m entry).Nodup := by
  refine nodup_flatMap_flatMap (fun d _ f _ ↦ ?_) fun d _ f _ d' _ f' _ p hp hp' ↦ ?_
  · rw [listedFunction]
    split_ifs with hhas hbridge
    · exact hsuits.nodup_listedLeaf (.bridge .root ⟨hhas, hbridge.2, rfl⟩)
    · exact List.nodup_singleton _
    · exact List.nodup_nil
  · obtain ⟨b₁, d₁, f₁, hreach₁, hhas₁, heq₁, hcase₁⟩ := hsuits.mem_listedFunction htree hp
    obtain ⟨b₂, d₂, f₂, hreach₂, hhas₂, heq₂, hcase₂⟩ := hsuits.mem_listedFunction htree hp'
    obtain ⟨rfl, rfl, rfl⟩ := hsuits.inj hreach₁ hreach₂ hhas₁ hhas₂ (heq₁.symm.trans heq₂)
    rcases hcase₁ with ⟨rfl, rfl, rfl⟩ | ⟨hpos₁, hleads₁⟩
    · rcases hcase₂ with ⟨-, rfl, rfl⟩ | ⟨hpos₂, -⟩
      · exact ⟨rfl, rfl⟩
      · exact absurd rfl hpos₂
    · rcases hcase₂ with ⟨rfl, -, -⟩ | ⟨-, hleads₂⟩
      · exact absurd rfl hpos₁
      · exact (htree.unique .root .root hleads₁ hleads₂).2

/-- **Each function that is not a bridge is listed.** -/
theorem Suits.mem_listedSegment (hsuits : Suits m entry) {b d f : ℕ}
    (hb : Reachable m entry.baseAddress b) (hhas : HasFunction m entry.baseAddress b d f)
    (hbridge : (functionHeader m entry.baseAddress b d f).isBridge = false) :
    getIoMapping (functionAddr entry.baseAddress b d f) ∈ listedSegment m entry := by
  have hmem : ∀ d f p, d < 32 → f < 8 →
      p ∈ listedFunction m entry.baseAddress (listedLeaf m entry) 0 d f →
        p ∈ listedSegment m entry := fun d f p hd hf hp ↦
    List.mem_flatMap.mpr ⟨d, List.mem_range.mpr hd,
      List.mem_flatMap.mpr ⟨f, List.mem_range.mpr hf, hp⟩⟩
  by_cases hzero : b = 0
  · subst hzero
    refine hmem d f _ hhas.1 hhas.2.1 ?_
    rw [listedFunction, if_pos hhas, if_neg fun h ↦ by simp [hbridge] at h]
    exact List.mem_singleton_self _
  · obtain ⟨d₀, f₀, hf₀, hleads⟩ := (hsuits.reachable_cases hb).resolve_left hzero
    refine hmem d₀ f₀ _ hleads.1.1 hleads.1.2.1 ?_
    rw [listedFunction, if_pos hleads.1, if_pos ⟨hf₀, hleads.2.1⟩, hleads.2.2]
    exact (hsuits.mem_listedLeaf hb hzero).mpr ⟨d, f, hhas, rfl⟩

/-- **A segment whose bridges are on bus 0, but not at function 0, is listed.** -/
theorem lists_of_suits (m : Machine) (entry : McfgEntry) (htree : IsTree m entry.baseAddress)
    (hsuits : Suits m entry) : Lists m entry := by
  have hleaf : ∀ b, b ≠ 0 → Reachable m entry.baseAddress b →
      scanBus m 1 (busAddr entry.baseAddress b) = some (listedLeaf m entry b) :=
    fun b hpos hb ↦ scanBus_eq 0 _ (hsuits.below b hb) fun d f s _ hleads ↦
      absurd (hsuits.flat b d f s hb hleads).1 hpos
  have hroot : scanBus m 2 entry.baseAddress = some (listedSegment m entry) := by
    have hbus := scanBus_eq 1 (listedLeaf m entry) (hsuits.below 0 .root)
      fun d f s _ hleads ↦ by
        rw [busAddr_zero]
        refine hleaf s (fun hzero ↦ ?_) (.bridge .root hleads)
        rw [hzero] at hleads
        exact htree.root .root hleads
    rwa [busAddr_zero] at hbus
  refine ⟨2, listedSegment m entry, ?_, fun b d f hb hhas hbridge ↦ ?_⟩
  · have hgroup : ¬ entry.segmentGroupNo > 0 := by
      rw [hsuits.scanned.2]
      exact lt_irrefl 0
    rw [initializePci, forEach, scanEntry, if_neg hsuits.scanned.1, if_neg hgroup, hroot, forEach]
    exact congrArg some (List.append_nil _)
  · exact List.count_eq_one_of_mem (hsuits.nodup_listedSegment htree)
      (hsuits.mem_listedSegment hb hhas hbridge)

/-- A function of bus 0 leads to bus 1, where another is: a second function, or the only one. -/
def twoBuses (multi : Bool) : Machine where
  config addr :=
    if addr = 0 then if multi then ⟨1, 0, 0, 0x80, 0⟩ else ⟨1, 4, 6, 0, 1⟩
    else if addr = 0x1000 then if multi then ⟨1, 4, 6, 0, 1⟩ else ⟨0xffff, 0, 0, 0, 0⟩
    else if addr = 0x100000 then ⟨1, 0, 0, 0, 0⟩
    else ⟨0xffff, 0, 0, 0, 0⟩
  stray := ⟨0xffff, 0, 0, 0, 0⟩

theorem leadsTo_twoBuses {multi : Bool} {b d f s : ℕ} (hb : b ≤ 1)
    (h : LeadsTo (twoBuses multi) 0 b d f s) :
    b = 0 ∧ d = 0 ∧ f = multi.toNat ∧ s = 1 := by
  obtain ⟨⟨hd, hf, -⟩, hbridge, hs⟩ := h
  have hzero : (0 : U64).toNat = 0 := rfl
  have hbound : (0 : U64).toNat + b * 0x100000 + 0x100000 ≤ 2 ^ 32 := by
    rw [hzero]
    omega
  have haddr := toNat_functionAddr hbound hd hf
  rw [hzero] at haddr
  have hplace : ∀ a : U64, functionAddr 0 b d f = a →
      b * 0x100000 + d * 0x8000 + f * 0x1000 = a.toNat := by
    intro a ha
    rw [ha] at haddr
    omega
  rw [functionHeader, twoBuses] at hbridge hs
  dsimp only at hbridge hs
  split_ifs at hbridge hs with hfirst hmulti hsecond hmulti hother
  · exact absurd hbridge (by decide)
  · have := hplace 0 hfirst
    rw [hzero] at this
    cases multi with
    | false => exact ⟨by omega, by omega, by rw [Bool.toNat_false]; omega, hs.symm⟩
    | true => exact absurd rfl hmulti
  · have := hplace 0x1000 hsecond
    have hpage : (0x1000 : U64).toNat = 0x1000 := rfl
    rw [hpage] at this
    cases multi with
    | false => exact absurd hmulti (by decide)
    | true => exact ⟨by omega, by omega, by rw [Bool.toNat_true]; omega, hs.symm⟩
  · exact absurd hbridge (by decide)
  · exact absurd hbridge (by decide)
  · exact absurd hbridge (by decide)

theorem reachable_twoBuses {multi : Bool} {b : ℕ} (h : Reachable (twoBuses multi) 0 b) : b ≤ 1 := by
  induction h with
  | root => exact Nat.zero_le 1
  | bridge _ hleads ih => exact (leadsTo_twoBuses ih hleads).2.2.2.le

theorem isTree_twoBuses (multi : Bool) : IsTree (twoBuses multi) 0 where
  root hb hleads := absurd (leadsTo_twoBuses (reachable_twoBuses hb) hleads).2.2.2 (by decide)
  unique hb hb' hleads hleads' := by
    obtain ⟨rfl, rfl, rfl, -⟩ := leadsTo_twoBuses (reachable_twoBuses hb) hleads
    obtain ⟨rfl, rfl, rfl, -⟩ := leadsTo_twoBuses (reachable_twoBuses hb') hleads'
    exact ⟨rfl, rfl, rfl⟩

/-- The bridge is the second function. -/
theorem lists_twoBuses : Reachable (twoBuses true) 0 1 ∧ Lists (twoBuses true) ⟨0, 0, 0, 255⟩ := by
  have hzero : (0 : U64).toNat = 0 := rfl
  have hleads : LeadsTo (twoBuses true) 0 0 0 1 1 := by
    refine ⟨?_, ?_, ?_⟩ <;> decide
  refine ⟨.bridge .root hleads, lists_of_suits _ _ (isTree_twoBuses true)
    ⟨⟨by decide, rfl⟩, ?_, ?_⟩⟩
  · intro b hb
    have := reachable_twoBuses hb
    dsimp only
    rw [hzero]
    omega
  · intro b d f s hb h
    obtain ⟨hb0, -, hf, -⟩ := leadsTo_twoBuses (reachable_twoBuses hb) h
    exact ⟨hb0, by rw [hf]; decide⟩

/-- The bridge is the first function: what is behind it is not found. -/
theorem not_lists_twoBuses :
    IsTree (twoBuses false) 0 ∧ ¬ Lists (twoBuses false) ⟨0, 0, 0, 255⟩ := by
  refine ⟨isTree_twoBuses false, ?_⟩
  rintro ⟨levels, devices, hdevices, hcount⟩
  have hleads : LeadsTo (twoBuses false) 0 0 0 0 1 := by
    refine ⟨?_, ?_, ?_⟩ <;> decide
  have hone := hcount 1 0 0 (.bridge .root hleads) (by decide) (by decide)
  cases levels with
  | zero => cases hdevices
  | succ levels =>
    have hbus : scanBus (twoBuses false) (levels + 1) 0 =
        some (listedBus (twoBuses false) 0 (fun _ ↦ []) 0) := by
      have hbound : (0 : U64).toNat + 0 * 0x100000 + 0x100000 ≤ 2 ^ 32 := by decide
      have h := scanBus_eq (m := twoBuses false) levels (fun _ ↦ []) hbound fun d f s hf h ↦
        absurd (leadsTo_twoBuses (Nat.zero_le 1) h).2.2.1 hf
      rwa [busAddr_zero] at h
    rw [initializePci, forEach, scanEntry, if_neg (by decide), if_neg (by decide), hbus] at hdevices
    have hlist : devices = listedBus (twoBuses false) 0 (fun _ ↦ []) 0 :=
      (Option.some.inj hdevices).symm.trans (List.append_nil _)
    have hmem : getIoMapping (functionAddr 0 1 0 0) ∈ devices :=
      List.count_pos_iff.mp (by rw [hone]; exact one_pos)
    rw [hlist] at hmem
    obtain ⟨d, -, hmem⟩ := List.mem_flatMap.mp hmem
    obtain ⟨f, -, hmem⟩ := List.mem_flatMap.mp hmem
    obtain ⟨hhas, heq⟩ := mem_listedFunction_nil hmem
    exact absurd (functionAddr_inj (by decide) (by decide) (by decide) (by decide) hhas.1 hhas.2.1
      heq).1 one_ne_zero

end Borrrdex.Pci
