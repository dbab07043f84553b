import Borrrdex.Boot.Madt

/-!
# Starting the processors

`read_madt` numbers the processors as it finds them, from 1 on, `smp::initialize` puts them in
`cpus` by their APIC ids, and the scheduler takes `get_cpu(i)` for each number below
`get_proc_count()`.  These are the same processors only if the ids are the numbers from 0 on and the
boot processor is number 0: the first slot of `processors`, which `read_madt` does not store, is
taken for another processor with id 0 if the boot processor has another id.

`numbered_iff` says just that, of the processors that `read_madt` notes.  A processor that is to be
started does start here.
-/

set_option autoImplicit false

namespace Borrrdex

open Acpi

/-- A `cpu`: which `new cpu()` has made it, and its id. -/
structure Smp.Cpu where
  ref : ℕ
  id : ℕ
  deriving DecidableEq

/-- The variables of `smp.cpp`, how many `cpu`s have been made, and the processors that have
been started. -/
structure Smp where
  cpus : ℕ → Option Smp.Cpu
  processorCount : ℕ
  made : ℕ
  started : List ℕ

namespace Smp

/-- `get_cpu`. -/
def getCpu (s : Smp) (index : ℕ) : Option Cpu := s.cpus index

/-- `initialize_cpu`. -/
def initializeCpu (id : ℕ) (s : Smp) : Smp :=
  { s with
    cpus := Function.update s.cpus id (some ⟨s.made, id⟩)
    made := s.made + 1
    started := s.started ++ [id] }

/-- The boot processor's `cpu`. -/
def bootCpu (bspid : Byte) : Cpu := ⟨0, bspid.toNat⟩

/-- `smp::initialize`, up to `hal::smp_disabled`. -/
def initializeBoot (bspid : Byte) : Smp where
  cpus := Function.update (fun _ ↦ none) 0 (some (bootCpu bspid))
  processorCount := 1
  made := 1
  started := []

/-- The body of the loop of `smp::initialize`. -/
def startOther (bspid : Byte) (s : Smp) (id : Byte) : Smp :=
  if id ≠ bspid then initializeCpu id.toNat s else s

/-- `smp::initialize`. -/
def initializeSmp (smpDisabled : Bool) (bspid : Byte) (acpi : MadtState) : Smp :=
  if smpDisabled then initializeBoot bspid
  else
    (List.range acpi.processorCount).foldl (fun s i ↦ startOther bspid s (acpi.processors i))
      { initializeBoot bspid with processorCount := acpi.processorCount }

/-- The loop of `insert_new_thread`, by the lengths of the run queues; none if it takes a
null pointer. -/
def insertLoop (s : Smp) (runQueueCount : Cpu → ℕ) : List ℕ → Cpu → Option Cpu
  | [], c => some c
  | i :: is, c =>
    match s.getCpu i with
    | none => none
    | some next =>
      let c := if runQueueCount next < runQueueCount c then next else c
      if runQueueCount c = 0 then some c else insertLoop s runQueueCount is c

/-- The processor that `insert_new_thread` chooses. -/
def insertNewThread (s : Smp) (runQueueCount : Cpu → ℕ) : Option Cpu :=
  match s.getCpu 0 with
  | none => none
  | some c => insertLoop s runQueueCount (List.range' 1 (s.processorCount - 1)) c

/-- The processors that the loop of `end_process` looks at besides the one it runs on; none if it
takes a null pointer. -/
def endLoop (s : Smp) (c : Cpu) : List ℕ → Option (List Cpu)
  | [] => some []
  | i :: is =>
    match s.getCpu i with
    | none => none
    | some other =>
      if other.id = c.id then endLoop s c is else (endLoop s c is).map (other :: ·)

/-- The other processors that `end_process` looks at. -/
def endProcess (s : Smp) (c : Cpu) : Option (List Cpu) :=
  s.endLoop c (List.range s.processorCount)

/-- **The processors have the numbers below the count.** -/
structure Numbered (bspid : Byte) (s : Smp) : Prop where
  entry : ∀ i < s.processorCount, (s.getCpu i).isSome
  distinct : ∀ i < s.processorCount, ∀ j < s.processorCount, i ≠ j → s.getCpu i ≠ s.getCpu j
  boot : ∃! i, i < s.processorCount ∧ s.getCpu i = some (bootCpu bspid)
  started : ∀ id ∈ s.started, ∃ i < s.processorCount, ∃ c, s.getCpu i = some c ∧ c.id = id
  /-- No null pointer is taken where a thread is inserted, and any processor may be chosen. -/
  insert : ∀ runQueueCount, (s.insertNewThread runQueueCount).isSome
  insert_reaches : ∀ i < s.processorCount, ∃ runQueueCount,
    s.insertNewThread runQueueCount = s.getCpu i
  /-- No null pointer is taken where a process ends, and all the other processors are looked at. -/
  end_reaches : ∀ i < s.processorCount, ∃ c others, s.getCpu i = some c ∧
    s.endProcess c = some others ∧
      ∀ j < s.processorCount, j ≠ i → ∃ other ∈ others, s.getCpu j = some other

/-! ## Starting -/

variable {bspid : Byte} {s : Smp}

/-- **What the loop leaves in a slot** is what was there if no processor of that id is started, and
else the `cpu` that was made for it. -/
theorem foldl_startOther_spec (bspid : Byte) (ids : List Byte) (s : Smp) :
    (∀ j, (∀ id ∈ ids, id ≠ bspid → id.toNat ≠ j) →
      (ids.foldl (startOther bspid) s).cpus j = s.cpus j) ∧
    (∀ id ∈ ids, id ≠ bspid → ∃ ref, s.made ≤ ref ∧
      (ids.foldl (startOther bspid) s).cpus id.toNat = some ⟨ref, id.toNat⟩) ∧
    (ids.foldl (startOther bspid) s).processorCount = s.processorCount ∧
    (ids.foldl (startOther bspid) s).started =
      s.started ++ (ids.filter (· ≠ bspid)).map BitVec.toNat := by
  induction ids generalizing s with
  | nil => simp
  | cons id ids ih =>
    obtain ⟨hsame, hmade, hcount, hstarted⟩ := ih (startOther bspid s id)
    rw [List.foldl_cons]
    by_cases hid : id = bspid
    · have hskip : startOther bspid s id = s := if_neg (not_not.mpr hid)
      rw [hskip] at hsame hmade hcount hstarted ⊢
      refine ⟨fun j hj ↦ hsame j fun id' h ↦ hj id' (List.mem_cons_of_mem _ h), ?_, hcount, ?_⟩
      · intro id' hid' hne
        rcases List.mem_cons.mp hid' with rfl | hrest
        · exact absurd hid hne
        · exact hmade id' hrest hne
      · rw [hstarted, List.filter_cons_of_neg (by simpa using hid)]
    · have hstart : startOther bspid s id = initializeCpu id.toNat s := if_pos hid
      rw [hstart] at hsame hmade hcount hstarted ⊢
      refine ⟨fun j hj ↦ ?_, ?_, hcount, ?_⟩
      · rw [hsame j fun id' h ↦ hj id' (List.mem_cons_of_mem _ h)]
        exact Function.update_of_ne (hj id (List.mem_cons_self ..) hid).symm _ _
      · intro id' hid' hne
        by_cases hlater : id' ∈ ids
        · obtain ⟨ref, hle, hcpu⟩ := hmade id' hlater hne
          exact ⟨ref, (Nat.le_succ _).trans hle, hcpu⟩
        · -- the slot is not stored in again
          have heq : id' = id := (List.mem_cons.mp hid').resolve_right hlater
          subst heq
          refine ⟨s.made, le_rfl, ?_⟩
          have hnot : ∀ id'' ∈ ids, id'' ≠ bspid → id''.toNat ≠ id'.toNat := by
            intro id'' h _ heq
            rw [BitVec.eq_of_toNat_eq heq] at h
            exact hlater h
          rw [hsame _ hnot]
          exact Function.update_self _ _ _
      · rw [hstarted, List.filter_cons_of_pos (by simpa using hid), List.map_cons]
        exact List.append_assoc _ _ _

/-! ## The scheduler's loops -/

/-- In each slot below the count is the processor of that number. -/
def Dense (s : Smp) : Prop := ∀ i < s.processorCount, ∃ c, s.cpus i = some c ∧ c.id = i

theorem isSome_insertLoop (runQueueCount : Cpu → ℕ) {is : List ℕ}
    (hsome : ∀ i ∈ is, ∃ c, s.cpus i = some c ∧ c.id = i) (c : Cpu) :
    (s.insertLoop runQueueCount is c).isSome := by
  induction is generalizing c with
  | nil => rfl
  | cons i is ih =>
    obtain ⟨next, hnext, -⟩ := hsome i (List.mem_cons_self ..)
    rw [insertLoop, getCpu, hnext]
    dsimp only
    split_ifs
    · rfl
    · exact ih (fun j hj ↦ hsome j (List.mem_cons_of_mem _ hj)) _
    · rfl
    · exact ih (fun j hj ↦ hsome j (List.mem_cons_of_mem _ hj)) _

/-- A thread goes to the processor whose queue alone is empty. -/
theorem insertLoop_eq {is : List ℕ} {target : ℕ}
    (hsome : ∀ i ∈ is, ∃ c, s.cpus i = some c ∧ c.id = i) (htarget : target ∈ is) {c : Cpu}
    (hc : c.id ≠ target) :
    s.insertLoop (fun c ↦ if c.id = target then 0 else 1) is c = s.cpus target := by
  induction is with
  | nil => cases htarget
  | cons i is ih =>
    obtain ⟨next, hnext, hid⟩ := hsome i (List.mem_cons_self ..)
    rw [insertLoop, getCpu, hnext]
    dsimp only
    rw [if_neg hc]
    by_cases hi : i = target
    · rw [if_pos (hid.trans hi), if_pos one_pos, if_pos (hid.trans hi), if_pos rfl, ← hi, hnext]
    · have hlater : target ∈ is := (List.mem_cons.mp htarget).resolve_left (Ne.symm hi)
      have hne : next.id ≠ target := fun h ↦ hi (hid.symm.trans h)
      rw [if_neg hne, if_neg (lt_irrefl 1), if_neg hc, if_neg one_ne_zero]
      exact ih (fun j hj ↦ hsome j (List.mem_cons_of_mem _ hj)) hlater

/-- The first processor is chosen if its queue alone is empty. -/
theorem insertLoop_first {is : List ℕ} {target : ℕ}
    (hsome : ∀ i ∈ is, ∃ c, s.cpus i = some c ∧ c.id = i) (htarget : target ∉ is) {c : Cpu}
    (hc : c.id = target) :
    s.insertLoop (fun c ↦ if c.id = target then 0 else 1) is c = some c := by
  cases is with
  | nil => rfl
  | cons i is =>
    obtain ⟨next, hnext, hid⟩ := hsome i (List.mem_cons_self ..)
    have hne : next.id ≠ target := by
      rw [hid]
      exact fun h ↦ htarget (h ▸ List.mem_cons_self ..)
    rw [insertLoop, getCpu, hnext]
    dsimp only
    rw [if_neg hne, if_pos hc, if_neg (Nat.not_lt_zero 1), if_pos hc, if_pos rfl]

/-- The loop of `end_process` looks at each processor with another id. -/
theorem endLoop_spec (is : List ℕ) (hsome : ∀ i ∈ is, ∃ c, s.cpus i = some c ∧ c.id = i) (c : Cpu) :
    ∃ others, s.endLoop c is = some others ∧
      ∀ i ∈ is, i ≠ c.id → ∃ other ∈ others, s.cpus i = some other := by
  induction is with
  | nil => exact ⟨[], rfl, by simp⟩
  | cons i is ih =>
    obtain ⟨other, hother, hid⟩ := hsome i (List.mem_cons_self ..)
    obtain ⟨others, hothers, hall⟩ := ih fun j hj ↦ hsome j (List.mem_cons_of_mem _ hj)
    rw [endLoop, getCpu, hother]
    dsimp only
    split_ifs with hsame
    · refine ⟨others, hothers, fun j hj hne ↦ ?_⟩
      rcases List.mem_cons.mp hj with rfl | hrest
      · exact absurd (hid.symm.trans hsame) hne
      · exact hall j hrest hne
    · refine ⟨other :: others, by rw [hothers]; rfl, fun j hj hne ↦ ?_⟩
      rcases List.mem_cons.mp hj with rfl | hrest
      · exact ⟨other, List.mem_cons_self .., hother⟩
      · obtain ⟨other', hmem, hcpu⟩ := hall j hrest hne
        exact ⟨other', List.mem_cons_of_mem _ hmem, hcpu⟩

/-- **The scheduler reaches the processors that are in the slots of their ids.** -/
theorem numbered_of_dense (hdense : s.Dense) (hpos : 0 < s.processorCount)
    (hboot : s.cpus 0 = some (bootCpu bspid))
    (hstarted : ∀ id ∈ s.started, id < s.processorCount) : Numbered bspid s where
  entry i hi := by
    obtain ⟨c, hc, -⟩ := hdense i hi
    rw [getCpu, hc]
    rfl
  distinct i hi j hj hne heq := by
    obtain ⟨c, hc, hid⟩ := hdense i hi
    obtain ⟨c', hc', hid'⟩ := hdense j hj
    rw [getCpu, getCpu, hc, hc'] at heq
    obtain rfl := Option.some.inj heq
    exact hne (hid.symm.trans hid')
  boot := by
    refine ⟨0, ⟨hpos, hboot⟩, fun i hi ↦ ?_⟩
    obtain ⟨c, hc, hid⟩ := hdense i hi.1
    obtain ⟨c', hc', hid'⟩ := hdense 0 hpos
    have heq : some c = some c' := hc.symm.trans (hi.2.trans (hboot.symm.trans hc'))
    obtain rfl := Option.some.inj heq
    exact hid.symm.trans hid'
  started id hid := by
    obtain ⟨c, hc, hcid⟩ := hdense id (hstarted id hid)
    exact ⟨id, hstarted id hid, c, hc, hcid⟩
  insert runQueueCount := by
    rw [insertNewThread, getCpu, hboot]
    refine isSome_insertLoop runQueueCount (fun i hi ↦ hdense i ?_) _
    rw [List.mem_range'_1] at hi
    omega
  insert_reaches target htarget := by
    refine ⟨fun c ↦ if c.id = target then 0 else 1, ?_⟩
    have hsome : ∀ i ∈ List.range' 1 (s.processorCount - 1), ∃ c, s.cpus i = some c ∧ c.id = i := by
      intro i hi
      rw [List.mem_range'_1] at hi
      exact hdense i (by omega)
    obtain ⟨c, hc, hid⟩ := hdense 0 hpos
    rw [insertNewThread, getCpu, getCpu, hc]
    by_cases hzero : target = 0
    · subst hzero
      rw [hc]
      exact insertLoop_first hsome (by simp [List.mem_range'_1]) hid
    · refine insertLoop_eq hsome ?_ fun h ↦ hzero (h.symm.trans hid)
      rw [List.mem_range'_1]
      omega
  end_reaches i hi := by
    obtain ⟨c, hc, hid⟩ := hdense i hi
    obtain ⟨others, hothers, hall⟩ := endLoop_spec (List.range s.processorCount)
      (fun j hj ↦ hdense j (List.mem_range.mp hj)) c
    refine ⟨c, others, hc, hothers, fun j hj hne ↦ hall j (List.mem_range.mpr hj) ?_⟩
    rw [hid]
    exact hne

/-! ## The processors that are noted -/

theorem processors_zero_foldl {mem : ℕ → Byte} (os : List ℕ) {acpi : MadtState}
    (hcounted : acpi.Counted) (hzero : acpi.processors 0 = 0) :
    (os.foldl (madtEntry mem bspid) acpi).processors 0 = 0 := by
  induction os generalizing acpi with
  | nil => exact hzero
  | cons o os ih =>
    rw [List.foldl_cons]
    refine ih (madtEntry_spec mem bspid hcounted o).1 ?_
    cases hsec : secondary mem bspid o with
    | false => rw [(madtEntry_of_not_secondary hsec acpi).1, hzero]
    | true =>
      have hne : 0 ≠ acpi.processorCount := Nat.ne_of_lt hcounted.1
      rw [(madtEntry_of_secondary hsec acpi).1, Function.update_of_ne hne, hzero]

/-- `read_madt` leaves the first slot alone. -/
theorem noted_readMadt {mem : ℕ → Byte} {tests : ℕ} {acpi : MadtState}
    (h : readMadt mem bspid tests = some acpi) : acpi.Counted ∧ acpi.processors 0 = 0 := by
  obtain ⟨os, -, rfl⟩ := RecordChain.exists_records_of_walk h
  have hstart : (MadtState.atLoad.read 4 4).Counted := ⟨le_rfl, rfl⟩
  exact ⟨(foldl_madtEntry_spec mem bspid os hstart 0).1, processors_zero_foldl os hstart rfl⟩

/-- The loop of `smp::initialize` is about processor 0 and those that are noted. -/
theorem initializeSmp_eq {acpi : MadtState} (hcounted : acpi.Counted)
    (hzero : acpi.processors 0 = 0) :
    initializeSmp false bspid acpi =
      (0 :: acpi.ids).foldl (startOther bspid)
        { initializeBoot bspid with processorCount := acpi.processorCount } := by
  have hslots : (List.range acpi.processorCount).map acpi.processors = 0 :: acpi.ids := by
    obtain ⟨n, hn⟩ : ∃ n, acpi.processorCount = n + 1 := ⟨acpi.processorCount - 1, by
      have := hcounted.1
      omega⟩
    rw [MadtState.ids, hn, List.range_eq_range', List.range'_succ, List.map_cons, hzero]
    rfl
  have hunfold : initializeSmp false bspid acpi =
      (List.range acpi.processorCount).foldl (fun s i ↦ startOther bspid s (acpi.processors i))
        { initializeBoot bspid with processorCount := acpi.processorCount } := rfl
  rw [hunfold, ← hslots, List.foldl_map]

/-- So many ids, all the numbers from 1 up to their number among them, are these numbers. -/
theorem toNat_le_length {ids : List Byte}
    (hall : ∀ i, 1 ≤ i → i ≤ ids.length → ∃ id ∈ ids, id.toNat = i) {id : Byte} (hid : id ∈ ids) :
    id.toNat ≤ ids.length := by
  have hsub : Finset.Icc 1 ids.length ⊆ (ids.map BitVec.toNat).toFinset := by
    intro i hi
    rw [Finset.mem_Icc] at hi
    obtain ⟨id', hmem, heq⟩ := hall i hi.1 hi.2
    exact List.mem_toFinset.mpr (List.mem_map.mpr ⟨id', hmem, heq⟩)
  have hcard : (ids.map BitVec.toNat).toFinset.card ≤ (Finset.Icc 1 ids.length).card := by
    rw [Nat.card_Icc, Nat.add_sub_cancel]
    exact (List.toFinset_card_le _).trans (List.length_map _).le
  have heq := Finset.eq_of_subset_of_card_le hsub hcard
  have hmem : id.toNat ∈ Finset.Icc 1 ids.length := by
    rw [heq]
    exact List.mem_toFinset.mpr (List.mem_map_of_mem hid)
  exact (Finset.mem_Icc.mp hmem).2

theorem numbered_initializeBoot (bspid : Byte) : Numbered bspid (initializeBoot bspid) where
  entry i hi := by
    obtain rfl : i = 0 := Nat.lt_one_iff.mp hi
    rfl
  distinct i hi j hj hne := absurd ((Nat.lt_one_iff.mp hi).trans (Nat.lt_one_iff.mp hj).symm) hne
  boot := ⟨0, ⟨one_pos, rfl⟩, fun i hi ↦ Nat.lt_one_iff.mp hi.1⟩
  started id hid := absurd hid List.not_mem_nil
  insert _ := rfl
  insert_reaches i hi := by
    obtain rfl : i = 0 := Nat.lt_one_iff.mp hi
    exact ⟨fun _ ↦ 0, rfl⟩
  end_reaches i hi := by
    obtain rfl : i = 0 := Nat.lt_one_iff.mp hi
    refine ⟨bootCpu bspid, [], rfl, if_pos rfl, fun j hj hne ↦ ?_⟩
    exact absurd (Nat.lt_one_iff.mp hj) hne

/-- A slot that holds another `cpu` than the boot processor's has been stored in. -/
theorem exists_started {ids : List Byte} {count i : ℕ} {c : Cpu}
    (hcpu : (ids.foldl (startOther bspid)
      { initializeBoot bspid with processorCount := count }).cpus i = some c)
    (hne : i ≠ 0 ∨ c ≠ bootCpu bspid) : ∃ id ∈ ids, id ≠ bspid ∧ id.toNat = i := by
  by_contra hnone
  push Not at hnone
  rw [(foldl_startOther_spec bspid ids _).1 i hnone] at hcpu
  by_cases hzero : i = 0
  · subst hzero
    have hboot : some (bootCpu bspid) = some c := hcpu
    exact (hne.resolve_left (not_not.mpr rfl)) (Option.some.inj hboot).symm
  · have hempty : (initializeBoot bspid).cpus i = none := by
      rw [initializeBoot]
      exact Function.update_of_ne hzero (some (bootCpu bspid)) fun _ ↦ none
    cases hempty.symm.trans hcpu

/-- **The processors have the numbers below the count just if** they are not started, or the boot
processor has the id 0 and the others have the ids from 1 on. -/
theorem numbered_iff (mem : ℕ → Byte) (bspid : Byte) (tests : ℕ) (acpi : MadtState)
    (smpDisabled : Bool) (h : readMadt mem bspid tests = some acpi) :
    Numbered bspid (initializeSmp smpDisabled bspid acpi) ↔
      smpDisabled = true ∨
        bspid = 0 ∧ ∀ i, 1 ≤ i → i ≤ acpi.ids.length → ∃ id ∈ acpi.ids, id.toNat = i := by
  cases smpDisabled with
  | true => exact ⟨fun _ ↦ Or.inl rfl, fun _ ↦ numbered_initializeBoot bspid⟩
  | false =>
    obtain ⟨hcounted, hzero⟩ := noted_readMadt h
    have hlen : acpi.processorCount = acpi.ids.length + 1 := by
      rw [MadtState.ids, List.length_map, List.length_range']
      have := hcounted.1
      omega
    rw [initializeSmp_eq hcounted hzero, hlen]
    obtain ⟨hsame, hmade, hcount, hstarted⟩ := foldl_startOther_spec bspid
      (0 :: acpi.ids) { initializeBoot bspid with processorCount := acpi.ids.length + 1 }
    refine ⟨fun hnum ↦ Or.inr ?_, ?_⟩
    · have hbsp : bspid = 0 := by
        by_contra hne
        obtain ⟨i, ⟨-, hboot⟩, -⟩ := hnum.boot
        -- the slot of the boot processor has been taken for processor 0
        have hi : ∃ id ∈ 0 :: acpi.ids, id ≠ bspid ∧ id.toNat = i := by
          by_cases hi : i = 0
          · exact ⟨0, List.mem_cons_self .., Ne.symm hne, hi.symm⟩
          · exact exists_started hboot (Or.inl hi)
        obtain ⟨id, hid, hother, rfl⟩ := hi
        obtain ⟨ref, href, hcpu⟩ := hmade id hid hother
        have heq := Option.some.inj (hcpu.symm.trans hboot)
        have hboot0 : ref = 0 := congrArg Cpu.ref heq
        rw [hboot0] at href
        exact absurd href (Nat.not_succ_le_zero 0)
      refine ⟨hbsp, fun i hpos hle ↦ ?_⟩
      obtain ⟨c, hc⟩ := Option.isSome_iff_exists.mp
        (hnum.entry i (by rw [hcount]; dsimp only; omega))
      obtain ⟨id, hid, hother, hval⟩ := exists_started hc (Or.inl (by omega))
      refine ⟨id, (List.mem_cons.mp hid).resolve_left ?_, hval⟩
      rw [← hbsp]
      exact hother
    · rintro (hno | ⟨rfl, hall⟩)
      · cases hno
      have hboot : ((0 :: acpi.ids).foldl (startOther 0)
          { initializeBoot 0 with processorCount := acpi.ids.length + 1 }).cpus 0 =
            some (bootCpu 0) := by
        refine hsame 0 fun id _ hother hval ↦ hother ?_
        exact BitVec.eq_of_toNat_eq hval
      refine numbered_of_dense (fun i hi ↦ ?_) (by rw [hcount]; exact Nat.succ_pos _) hboot
        fun id hid ↦ ?_
      · rw [hcount] at hi
        by_cases hpos : i = 0
        · subst hpos
          exact ⟨_, hboot, rfl⟩
        · obtain ⟨id, hid, rfl⟩ := hall i (by omega) (Nat.le_of_lt_succ hi)
          obtain ⟨ref, -, hcpu⟩ := hmade id (List.mem_cons_of_mem _ hid)
            (fun h ↦ hpos (congrArg BitVec.toNat h))
          exact ⟨_, hcpu, rfl⟩
      · rw [hstarted] at hid
        rw [hcount]
        obtain ⟨id', ⟨hmem, -⟩, rfl⟩ : ∃ id', (id' ∈ acpi.ids ∧ id' ≠ 0) ∧ id'.toNat = id := by
          simpa [initializeBoot] using hid
        exact Nat.lt_succ_of_le (toNat_le_length hall hmem)

/-- A MADT with a local APIC of that id. -/
def oneApic (id : Byte) (p : ℕ) : Byte :=
  if p = 4 then 52 else if p = 45 then 8 else if p = 47 then id else if p = 48 then 1 else 0

/-- Two processors, 0 and 1. -/
theorem numbered_iff_two : ∃ acpi, readMadt (oneApic 1) 0 2 = some acpi ∧ acpi.ids = [1] ∧
    Numbered 0 (initializeSmp false 0 acpi) := by
  refine ⟨_, rfl, rfl, (numbered_iff (oneApic 1) 0 2 _ false rfl).mpr (Or.inr ⟨rfl, ?_⟩)⟩
  intro i hpos hle
  have hlen : i ≤ 1 := hle
  exact ⟨1, List.mem_singleton_self _, Nat.le_antisymm hpos hlen⟩

/-- Two processors, 0 and 2. -/
theorem not_numbered_gap : ∃ acpi, readMadt (oneApic 2) 0 2 = some acpi ∧ acpi.ids = [2] ∧
    ¬ Numbered 0 (initializeSmp false 0 acpi) := by
  refine ⟨_, rfl, rfl, fun hnum ↦ ?_⟩
  have hentry := hnum.entry 1 (by decide)
  revert hentry
  decide

end Smp

end Borrrdex
