import Mathlib.Logic.Function.Basic
import Mathlib.Tactic

/-!
# Concurrent reads on one AHCI port

`ahci_port::read_disk_block` picks a command slot, takes one of eight bounce buffers, and then for
each chunk of at most eight sectors fills the command header and the command table, issues the
command, waits for the slot's bit to clear and copies the buffer out.  Nothing serialises the
calls of different threads: the slot is picked by looking at the commands *already issued*, and
every command header of a port is given one and the same table address.

The calls and the device are interleaved here step by step.  The answers of the buffer semaphore
are arbitrary, and so are the locks' initial values; the buffers are exclusive all the same
(`buffers_exclusive`).  The slots and the table are exclusive only as long as the calls do not
overlap, and the main result says that this is exactly when every caller gets its own sectors by
right: a run keeps all three resources apart **iff** no call picks a slot while another is under
way.
-/

set_option autoImplicit false

namespace Borrrdex

namespace Ahci

variable {α : Type}

/-- How a call ends: `-EBUSY`, `EINTR`, `4`, the code of a failed command, or the sector count. -/
inductive Ending
  | busy
  | interrupted
  | noBuffer
  | failed
  | done
deriving DecidableEq

/-- Where a call is in `read_disk_block`. -/
inductive Pc
  /-- not yet called -/
  | idle
  /-- a slot was picked; about to wait for the semaphore -/
  | picked
  /-- in the loop of `acquire_buffer`, about to test the lock of buffer `i` -/
  | testing (i : ℕ)
  /-- a buffer was acquired; at the head of the chunk loop -/
  | ready
  /-- the command header is filled -/
  | headed
  /-- the command table is filled -/
  | filled
  /-- the command is issued -/
  | issued
  /-- the command completed without an error; about to copy the buffer out -/
  | fetched
  /-- about to release the buffer after a failed command -/
  | releasing
  /-- returned -/
  | finished (ending : Ending)
deriving DecidableEq

/-- The locals of one call: what is left to read, and what was copied out so far. -/
structure Call (α : Type) where
  pc : Pc
  lba : ℕ
  remaining : ℕ
  slot : ℕ
  buffer : ℕ
  received : List α

/-- The command table: the FIS's 48-bit address and 16-bit count, and the bounce buffer its single
PRDT entry points to. -/
structure Command where
  lba : ℕ
  count : ℕ
  buffer : ℕ

/-- The port, the memory behind it, and the calls, named by threads.  `headers` is the table
address in each slot's header, `tables` the tables by address. -/
structure Port (α : Type) where
  disk : ℕ → α
  slotCount : ℕ
  cmdListBase : ℕ
  commandIssue : ℕ → Bool
  taskFileError : Bool
  headers : ℕ → ℕ
  tables : ℕ → Option Command
  bufLocks : ℕ → Bool
  buffers : ℕ → List α
  calls : ℕ → Call α

/-- `PAGE_SIZE_4K / _block_size`, for the sectors of 512 bytes every disk here has. -/
def maxSectors : ℕ := 8

/-- The sectors of a request, by their 48-bit addresses. -/
def sectors (disk : ℕ → α) (lba n : ℕ) : List α :=
  (List.range n).map fun i ↦ disk ((lba + i) % 2 ^ 48)

/-- The address `prepare_cmd_header` computes, whatever the slot:
`cmd_list_base + sizeof(achi_hba_cmd_header_t) * 32`. -/
def tableBase (cmdListBase _slot : ℕ) : ℕ := cmdListBase + 32 * 32

/-- `find_cmdslot`: the first slot with no command issued; `none` is the source's -1. -/
def findCmdslot (commandIssue : ℕ → Bool) (slotCount : ℕ) : Option ℕ :=
  (List.range slotCount).find? fun i ↦ !commandIssue i

namespace Port

/-- The slot a call would pick now. -/
def findCmdslot (s : Port α) : Option ℕ :=
  Ahci.findCmdslot s.commandIssue s.slotCount

/-- The sectors the next command of a call reads. -/
def chunk (c : Call α) : ℕ :=
  if maxSectors ≤ c.remaining then maxSectors else c.remaining

/-- Write a call's locals back. -/
def setCall (s : Port α) (t : ℕ) (c : Call α) : Port α :=
  { s with calls := Function.update s.calls t c }

end Port

/-- One step of a thread or of the device. -/
inductive Event
  | pick (t : ℕ)
  | wait (t : ℕ) (granted : Bool)
  | test (t : ℕ)
  | header (t : ℕ)
  | table (t : ℕ)
  | issue (t : ℕ) (ready : Bool)
  | poll (t : ℕ)
  | copy (t : ℕ)
  | release (t : ℕ)
  | complete (slot : ℕ) (ok : Bool)

namespace Port

/-- Clear the interrupt status and pick a slot. -/
def pick (s : Port α) (t : ℕ) : Port α :=
  let c := s.calls t
  let s := { s with taskFileError := false }
  match s.findCmdslot with
  | none => s.setCall t { c with pc := .finished .busy }
  | some slot => s.setCall t { c with pc := .picked, slot := slot }

/-- The test of one lock in `acquire_buffer`. -/
def test (s : Port α) (t i : ℕ) : Port α :=
  let c := s.calls t
  if i < 8 then
    if s.bufLocks i then s.setCall t { c with pc := .testing (i + 1) }
    else
      { s with bufLocks := Function.update s.bufLocks i true }.setCall t
        { c with pc := .ready, buffer := i }
  else s.setCall t { c with pc := .finished .noBuffer }

/-- `release_buffer` and the return. -/
def release (s : Port α) (t : ℕ) (ending : Ending) : Port α :=
  let c := s.calls t
  { s with bufLocks := Function.update s.bufLocks c.buffer false }.setCall t
    { c with pc := .finished ending }

/-- The device carries out the command in a slot: it follows the header to the table and moves
the sectors into the buffer named there, or reports a task file error. -/
def complete (s : Port α) (slot : ℕ) (ok : Bool) : Port α :=
  let s := { s with commandIssue := Function.update s.commandIssue slot false }
  match s.tables (s.headers slot) with
  | some cmd =>
    if ok then
      { s with
        buffers := Function.update s.buffers cmd.buffer
          (sectors s.disk cmd.lba cmd.count ++ (s.buffers cmd.buffer).drop cmd.count) }
    else { s with taskFileError := true }
  | none => { s with taskFileError := true }

/-- One step; `none` when it is not the next one of its thread. -/
def step (s : Port α) : Event → Option (Port α)
  | .pick t => if (s.calls t).pc = .idle then some (s.pick t) else none
  | .wait t granted =>
    let c := s.calls t
    if c.pc = .picked then
      some (s.setCall t { c with pc := if granted then .testing 0 else .finished .interrupted })
    else none
  | .test t =>
    match (s.calls t).pc with
    | .testing i => some (s.test t i)
    | _ => none
  | .header t =>
    let c := s.calls t
    if c.pc = .ready ∧ 0 < c.remaining then
      let headers := Function.update s.headers c.slot (tableBase s.cmdListBase c.slot)
      some ({ s with headers := headers }.setCall t { c with pc := .headed })
    else none
  | .table t =>
    let c := s.calls t
    if c.pc = .headed then
      let cmd : Command :=
        { lba := c.lba % 2 ^ 48, count := chunk c % 2 ^ 16, buffer := c.buffer }
      let tables := Function.update s.tables (s.headers c.slot) (some cmd)
      some ({ s with tables := tables }.setCall t { c with pc := .filled })
    else none
  | .issue t ready =>
    let c := s.calls t
    if c.pc = .filled then
      if ready then
        let commandIssue := Function.update s.commandIssue c.slot true
        some ({ s with commandIssue := commandIssue }.setCall t { c with pc := .issued })
      else some (s.setCall t { c with pc := .releasing })
    else none
  | .poll t =>
    let c := s.calls t
    if c.pc = .issued ∧ s.commandIssue c.slot = false then
      some (s.setCall t { c with pc := if s.taskFileError then .releasing else .fetched })
    else none
  | .copy t =>
    let c := s.calls t
    if c.pc = .fetched then
      some (s.setCall t { c with
        pc := .ready
        lba := c.lba + chunk c
        remaining := c.remaining - chunk c
        received := c.received ++ (s.buffers c.buffer).take (chunk c) })
    else none
  | .release t =>
    let c := s.calls t
    if c.pc = .ready ∧ c.remaining = 0 then some (s.release t .done)
    else if c.pc = .releasing then some (s.release t .failed)
    else none
  | .complete slot ok => if s.commandIssue slot then some (s.complete slot ok) else none

/-- An interleaving. -/
def run (s : Port α) : List Event → Option (Port α)
  | [] => some s
  | e :: events => do
    let s ← s.step e
    s.run events

end Port

/-- Between picking a slot and finishing. -/
def Call.Active (c : Call α) : Prop := c.pc ≠ .idle ∧ ∀ ending, c.pc ≠ .finished ending

/-- Between acquiring a buffer and releasing it. -/
def Call.HasBuffer (c : Call α) : Prop :=
  c.pc = .ready ∨ c.pc = .headed ∨ c.pc = .filled ∨ c.pc = .issued ∨ c.pc = .fetched ∨
    c.pc = .releasing

/-- **The calls keep apart**: no two calls under way have one command slot, one command table or
one bounce buffer. -/
def Exclusive (s : Port α) : Prop :=
  ∀ t u, t ≠ u → (s.calls t).Active → (s.calls u).Active →
    (s.calls t).slot ≠ (s.calls u).slot ∧
    tableBase s.cmdListBase (s.calls t).slot ≠ tableBase s.cmdListBase (s.calls u).slot ∧
    ((s.calls t).HasBuffer → (s.calls u).HasBuffer → (s.calls t).buffer ≠ (s.calls u).buffer)

/-- Every caller that was told its sectors are there has them: `s₀` is the port before the calls,
with their requests. -/
def Delivered (s₀ s : Port α) : Prop :=
  ∀ t, (s.calls t).pc = .finished .done →
    (s.calls t).received = sectors s₀.disk (s₀.calls t).lba (s₀.calls t).remaining

/-- A port at rest, with calls that have not begun. -/
structure Initial (s : Port α) : Prop where
  idle : ∀ t, (s.calls t).pc = .idle
  received : ∀ t, (s.calls t).received = []
  quiet : ∀ slot, s.commandIssue slot = false

/-- No call picks a slot while another call is under way. -/
def NoOverlap (s₀ : Port α) (events : List Event) : Prop :=
  ∀ past t, past ++ [.pick t] <+: events → ∀ s, s₀.run past = some s →
    (s.calls t).pc = .idle → s.findCmdslot ≠ none → ∀ u, ¬ (s.calls u).Active

/-! ## Sectors -/

theorem sectors_append (disk : ℕ → α) (lba n m : ℕ) :
    sectors disk lba (n + m) = sectors disk lba n ++ sectors disk (lba + n) m := by
  rw [sectors, List.range_add, List.map_append, List.map_map, sectors, sectors]
  refine congrArg _ (List.map_congr_left fun i _ ↦ ?_)
  simp only [Function.comp_apply, Nat.add_assoc]

@[simp] theorem length_sectors (disk : ℕ → α) (lba n : ℕ) : (sectors disk lba n).length = n := by
  simp [sectors]

/-- The device only sees the low 48 bits of an address. -/
theorem sectors_mod (disk : ℕ → α) (lba n : ℕ) :
    sectors disk (lba % 2 ^ 48) n = sectors disk lba n := by
  refine List.map_congr_left fun i _ ↦ ?_
  rw [Nat.mod_add_mod]

namespace Port

theorem chunk_le (c : Call α) : chunk c ≤ c.remaining := by
  rw [chunk]
  split <;> omega

theorem chunk_lt (c : Call α) : chunk c < 2 ^ 16 := by
  rw [chunk, maxSectors]
  split <;> omega

@[simp] theorem setCall_self (s : Port α) (t : ℕ) (c : Call α) : (s.setCall t c).calls t = c :=
  Function.update_self ..

theorem setCall_of_ne (s : Port α) {t u : ℕ} (h : u ≠ t) (c : Call α) :
    (s.setCall t c).calls u = s.calls u :=
  Function.update_of_ne h ..

theorem run_append (s : Port α) (past next : List Event) :
    s.run (past ++ next) = (s.run past).bind fun s' ↦ s'.run next := by
  induction past generalizing s with
  | nil => rfl
  | cons e past ih =>
    rw [List.cons_append, run, run]
    cases s.step e with
    | none => rfl
    | some s' => exact ih s'

theorem run_snoc {s s' : Port α} {past : List Event} (h : s.run past = some s') (e : Event) :
    s.run (past ++ [e]) = s'.step e := by
  rw [run_append, h, Option.bind_some, run]
  cases s'.step e <;> rfl

end Port

/-! ## The bounce buffers -/

/-- A buffer in use is locked, and used by one call. -/
structure BuffersInv (s : Port α) : Prop where
  locked : ∀ t, (s.calls t).HasBuffer → s.bufLocks (s.calls t).buffer = true
  distinct : ∀ t u, t ≠ u → (s.calls t).HasBuffer → (s.calls u).HasBuffer →
    (s.calls t).buffer ≠ (s.calls u).buffer

/-- What a step does to the buffers: nothing, or thread `t` takes one whose lock was free, or
gives its own back. -/
inductive BufferStep (s s' : Port α) : Prop
  | keep (t : ℕ) (others : ∀ u, u ≠ t → s'.calls u = s.calls u) (locks : s'.bufLocks = s.bufLocks)
      (mine : (s'.calls t).HasBuffer →
        (s.calls t).HasBuffer ∧ (s'.calls t).buffer = (s.calls t).buffer)
  | take (t i : ℕ) (others : ∀ u, u ≠ t → s'.calls u = s.calls u) (free : s.bufLocks i = false)
      (locks : s'.bufLocks = Function.update s.bufLocks i true) (mine : (s'.calls t).buffer = i)
  | give (t : ℕ) (others : ∀ u, u ≠ t → s'.calls u = s.calls u) (had : (s.calls t).HasBuffer)
      (locks : s'.bufLocks = Function.update s.bufLocks (s.calls t).buffer false)
      (mine : ¬ (s'.calls t).HasBuffer)

theorem BuffersInv.step {s s' : Port α} (h : BuffersInv s) (hs : BufferStep s s') :
    BuffersInv s' := by
  cases hs with
  | keep t others locks mine =>
    have hback : ∀ u, (s'.calls u).HasBuffer →
        (s.calls u).HasBuffer ∧ (s'.calls u).buffer = (s.calls u).buffer := by
      intro u hu
      by_cases hut : u = t
      · exact hut ▸ mine (hut ▸ hu)
      · rw [others u hut] at hu ⊢
        exact ⟨hu, rfl⟩
    constructor
    · intro u hu
      rw [locks, (hback u hu).2]
      exact h.locked u (hback u hu).1
    · intro u v huv hu hv
      rw [(hback u hu).2, (hback v hv).2]
      exact h.distinct u v huv (hback u hu).1 (hback v hv).1
  | take t i others free locks mine =>
    have hne : ∀ u, u ≠ t → (s'.calls u).HasBuffer → (s'.calls u).buffer ≠ i := by
      intro u hu hb he
      rw [others u hu] at hb he
      rw [← he, h.locked u hb] at free
      cases free
    constructor
    · intro u hu
      rw [locks]
      by_cases hut : u = t
      · rw [hut, mine, Function.update_self]
      · rw [Function.update_of_ne (hne u hut hu), others u hut]
        exact h.locked u (others u hut ▸ hu)
    · intro u v huv hu hv
      by_cases hut : u = t
      · rw [hut, mine]
        exact (hne v (fun hvt ↦ huv (hut.trans hvt.symm)) hv).symm
      · by_cases hvt : v = t
        · rw [hvt, mine]
          exact hne u hut hu
        · rw [others u hut, others v hvt]
          exact h.distinct u v huv (others u hut ▸ hu) (others v hvt ▸ hv)
  | give t others had locks mine =>
    have hother : ∀ u, (s'.calls u).HasBuffer → u ≠ t := by
      rintro u hu rfl
      exact mine hu
    constructor
    · intro u hu
      have hut := hother u hu
      rw [others u hut] at hu ⊢
      rw [locks, Function.update_of_ne (h.distinct u t hut hu had)]
      exact h.locked u hu
    · intro u v huv hu hv
      have hut := hother u hu
      have hvt := hother v hv
      rw [others u hut] at hu ⊢
      rw [others v hvt] at hv ⊢
      exact h.distinct u v huv hu hv

/-- A step that only moves a call that holds a buffer, or comes to hold none. -/
theorem BufferStep.of_setCall {s r : Port α} {t : ℕ} {c : Call α} (hr : r.calls = s.calls)
    (hlocks : r.bufLocks = s.bufLocks)
    (hc : c.HasBuffer → (s.calls t).HasBuffer ∧ c.buffer = (s.calls t).buffer) :
    BufferStep s (r.setCall t c) := by
  refine .keep t (fun u hu ↦ ?_) hlocks ?_
  · rw [Port.setCall_of_ne _ hu, hr]
  · rw [Port.setCall_self]
    exact hc

/-- Every step is of one of the three kinds. -/
theorem bufferStep_of_step {s s' : Port α} {e : Event} (h : s.step e = some s') :
    BufferStep s s' := by
  cases e with
  | pick t =>
    simp only [Port.step, Option.ite_none_right_eq_some, Option.some.injEq, Port.pick] at h
    obtain ⟨-, rfl⟩ := h
    split
    · exact .of_setCall rfl rfl fun hb ↦ by simp [Call.HasBuffer] at hb
    · exact .of_setCall rfl rfl fun hb ↦ by simp [Call.HasBuffer] at hb
  | wait t granted =>
    simp only [Port.step, Option.ite_none_right_eq_some, Option.some.injEq] at h
    obtain ⟨-, rfl⟩ := h
    refine .of_setCall rfl rfl fun hb ↦ ?_
    cases granted <;> simp [Call.HasBuffer] at hb
  | test t =>
    simp only [Port.step] at h
    split at h
    · next i hpc =>
      obtain rfl := Option.some.inj h
      simp only [Port.test]
      split
      · split
        · exact .of_setCall rfl rfl fun hb ↦ by simp [Call.HasBuffer] at hb
        · next hfree =>
          refine .take t i (fun u hu ↦ Port.setCall_of_ne _ hu _) (by simpa using hfree) rfl ?_
          rw [Port.setCall_self]
      · exact .of_setCall rfl rfl fun hb ↦ by simp [Call.HasBuffer] at hb
    · cases h
  | header t =>
    simp only [Port.step, Option.ite_none_right_eq_some, Option.some.injEq] at h
    obtain ⟨⟨hpc, -⟩, rfl⟩ := h
    exact .of_setCall rfl rfl fun _ ↦ ⟨by simp [Call.HasBuffer, hpc], rfl⟩
  | table t =>
    simp only [Port.step, Option.ite_none_right_eq_some, Option.some.injEq] at h
    obtain ⟨hpc, rfl⟩ := h
    exact .of_setCall rfl rfl fun _ ↦ ⟨by simp [Call.HasBuffer, hpc], rfl⟩
  | issue t ready =>
    simp only [Port.step, Option.ite_none_right_eq_some] at h
    obtain ⟨hpc, h⟩ := h
    split at h
    · obtain rfl := Option.some.inj h
      exact .of_setCall rfl rfl fun _ ↦ ⟨by simp [Call.HasBuffer, hpc], rfl⟩
    · obtain rfl := Option.some.inj h
      exact .of_setCall rfl rfl fun _ ↦ ⟨by simp [Call.HasBuffer, hpc], rfl⟩
  | poll t =>
    simp only [Port.step, Option.ite_none_right_eq_some, Option.some.injEq] at h
    obtain ⟨⟨hpc, -⟩, rfl⟩ := h
    exact .of_setCall rfl rfl fun _ ↦ ⟨by simp [Call.HasBuffer, hpc], rfl⟩
  | copy t =>
    simp only [Port.step, Option.ite_none_right_eq_some, Option.some.injEq] at h
    obtain ⟨hpc, rfl⟩ := h
    exact .of_setCall rfl rfl fun _ ↦ ⟨by simp [Call.HasBuffer, hpc], rfl⟩
  | release t =>
    have hgive : ∀ ending, (s.calls t).HasBuffer → BufferStep s (s.release t ending) := by
      intro ending hb
      refine .give t (fun u hu ↦ Port.setCall_of_ne _ hu _) hb rfl ?_
      rw [Port.release, Port.setCall_self]
      simp [Call.HasBuffer]
    simp only [Port.step] at h
    split at h
    · next hpc =>
      obtain rfl := Option.some.inj h
      exact hgive _ (by simp [Call.HasBuffer, hpc.1])
    · simp only [Option.ite_none_right_eq_some, Option.some.injEq] at h
      obtain ⟨hpc, rfl⟩ := h
      exact hgive _ (by simp [Call.HasBuffer, hpc])
  | complete slot ok =>
    simp only [Port.step, Option.ite_none_right_eq_some, Option.some.injEq] at h
    obtain ⟨-, rfl⟩ := h
    have hcalls : (s.complete slot ok).calls = s.calls := by
      simp only [Port.complete]
      split
      · split <;> rfl
      · rfl
    have hlocks : (s.complete slot ok).bufLocks = s.bufLocks := by
      simp only [Port.complete]
      split
      · split <;> rfl
      · rfl
    refine .keep 0 (fun u _ ↦ by rw [hcalls]) hlocks fun hb ↦ ?_
    rw [hcalls] at hb ⊢
    exact ⟨hb, rfl⟩

/-- **The bounce buffers are exclusive in every interleaving**, whatever the semaphore answers. -/
theorem buffers_exclusive {s₀ s : Port α} (h₀ : Initial s₀) {events : List Event}
    (hs : s₀.run events = some s) : BuffersInv s := by
  induction events using List.reverseRecOn generalizing s with
  | nil =>
    obtain rfl := Option.some.inj hs
    have hnone : ∀ t, ¬ (s₀.calls t).HasBuffer := fun t ↦ by simp [Call.HasBuffer, h₀.idle t]
    exact ⟨fun t ht ↦ absurd ht (hnone t), fun t _ _ ht ↦ absurd ht (hnone t)⟩
  | append_singleton events e ih =>
    cases hr : s₀.run events with
    | none =>
      rw [Port.run_append, hr] at hs
      cases hs
    | some s₁ =>
      rw [Port.run_snoc hr] at hs
      exact (ih hr).step (bufferStep_of_step hs)

/-! ## Calls one after another -/

/-- The command table holds this call's next command. -/
def Loaded (s : Port α) (c : Call α) : Prop :=
  s.tables (s.headers c.slot) =
    some { lba := c.lba % 2 ^ 48, count := Port.chunk c % 2 ^ 16, buffer := c.buffer }

/-- The call's buffer holds the sectors of its next chunk. -/
def Arrived (s : Port α) (c : Call α) : Prop :=
  (s.buffers c.buffer).take (Port.chunk c) = sectors s.disk c.lba (Port.chunk c)

/-- What memory holds for a call, by where it is. -/
def AtPc (s : Port α) (c : Call α) : Prop :=
  match c.pc with
  | .filled => Loaded s c
  | .issued =>
    if s.commandIssue c.slot then Loaded s c else s.taskFileError = false → Arrived s c
  | .fetched => Arrived s c
  | _ => True

/-- What the call has received and what it still has to read make up its request. -/
def OnCourse (s₀ s : Port α) (t : ℕ) : Prop :=
  (s.calls t).received ++ sectors s.disk (s.calls t).lba (s.calls t).remaining =
    sectors s₀.disk (s₀.calls t).lba (s₀.calls t).remaining

/-- The invariant of a run whose calls do not overlap. -/
structure SerialInv (s₀ s : Port α) : Prop where
  disk_eq : s.disk = s₀.disk
  slot_lt : ∀ t, (s.calls t).Active → (s.calls t).slot < s.slotCount
  idle_eq : ∀ t, (s.calls t).pc = .idle → s.calls t = s₀.calls t
  single : ∀ t u, (s.calls t).Active → (s.calls u).Active → t = u
  delivered : Delivered s₀ s
  course : ∀ t, (s.calls t).Active → OnCourse s₀ s t
  atPc : ∀ t, (s.calls t).Active → AtPc s (s.calls t)
  issuedBy : ∀ slot, s.commandIssue slot = true →
    ∃ t, (s.calls t).pc = .issued ∧ (s.calls t).slot = slot

theorem serialInv_initial {s₀ : Port α} (h₀ : Initial s₀) : SerialInv s₀ s₀ where
  disk_eq := rfl
  slot_lt := fun t ht ↦ absurd (h₀.idle t) ht.1
  idle_eq := fun _ _ ↦ rfl
  single := fun t _ ht ↦ absurd (h₀.idle t) ht.1
  delivered := fun t ht ↦ by
    rw [h₀.idle t] at ht
    cases ht
  course := fun t ht ↦ absurd (h₀.idle t) ht.1
  atPc := fun t ht ↦ absurd (h₀.idle t) ht.1
  issuedBy := fun slot hslot ↦ by
    rw [h₀.quiet slot] at hslot
    cases hslot

theorem active_issued {c : Call α} (h : c.pc = .issued) : c.Active := by
  constructor
  · rw [h]
    exact fun he ↦ by cases he
  · intro ending he
    rw [h] at he
    cases he

/-- While a call that has not issued a command is the only one under way, none is issued. -/
theorem SerialInv.quiet {s₀ s : Port α} (h : SerialInv s₀ s) {t : ℕ}
    (hquiet : ∀ u, u ≠ t → ¬ (s.calls u).Active) (hpc : (s.calls t).pc ≠ .issued) (slot : ℕ) :
    s.commandIssue slot = false := by
  cases hc : s.commandIssue slot with
  | false => rfl
  | true =>
    obtain ⟨u, hu, -⟩ := h.issuedBy slot hc
    by_cases hut : u = t
    · exact absurd (hut ▸ hu) hpc
    · exact absurd (active_issued hu) (hquiet u hut)

/-- **One call moves** while no other is under way: the invariant follows from what that call and
the command register are left with. -/
theorem SerialInv.move {s₀ s s' : Port α} (h : SerialInv s₀ s) (t : ℕ)
    (hquiet : ∀ u, u ≠ t → ¬ (s.calls u).Active)
    (hothers : ∀ u, u ≠ t → s'.calls u = s.calls u) (hdisk : s'.disk = s.disk)
    (hslot : (s'.calls t).slot < s'.slotCount) (hpc : (s'.calls t).pc ≠ .idle)
      (hcourse : OnCourse s₀ s' t)
    (hdone : (s'.calls t).pc = .finished .done → (s'.calls t).remaining = 0)
    (hat : AtPc s' (s'.calls t))
    (hissue : ∀ slot, s'.commandIssue slot = true →
      (s'.calls t).pc = .issued ∧ (s'.calls t).slot = slot) : SerialInv s₀ s' := by
  have hactive : ∀ u, (s'.calls u).Active → u = t := by
    intro u hu
    by_contra hut
    rw [hothers u hut] at hu
    exact hquiet u hut hu
  refine ⟨hdisk.trans h.disk_eq, ?_, ?_, ?_, ?_, ?_, ?_, ?_⟩
  · intro u hu
    rw [hactive u hu]
    exact hslot
  · intro u hu
    by_cases hut : u = t
    · exact absurd (hut ▸ hu) hpc
    · rw [hothers u hut] at hu ⊢
      exact h.idle_eq u hu
  · intro u v hu hv
    rw [hactive u hu, hactive v hv]
  · intro u hu
    by_cases hut : u = t
    · subst hut
      rw [OnCourse, hdone hu] at hcourse
      simpa [sectors] using hcourse
    · rw [hothers u hut] at hu ⊢
      exact h.delivered u hu
  · intro u hu
    rw [hactive u hu]
    exact hcourse
  · intro u hu
    rw [hactive u hu]
    exact hat
  · intro slot hslot
    exact ⟨t, hissue slot hslot⟩

/-- The other calls are not under way while this one is. -/
theorem SerialInv.others {s₀ s : Port α} (h : SerialInv s₀ s) {t : ℕ} (ht : (s.calls t).Active)
    (u : ℕ) (hu : u ≠ t) : ¬ (s.calls u).Active :=
  fun ha ↦ hu (h.single u t ha ht)

/-- A step of a call under way while no command is issued. -/
theorem SerialInv.setPc {s₀ s r : Port α} (h : SerialInv s₀ s) {t : ℕ} (ht : (s.calls t).Active)
    (hci : ∀ slot, s.commandIssue slot = false) {c : Call α}
    (hr : r.calls = s.calls ∧ r.disk = s.disk ∧ r.slotCount = s.slotCount ∧
      r.commandIssue = s.commandIssue)
    (hc : c.received = (s.calls t).received ∧ c.lba = (s.calls t).lba ∧
      c.remaining = (s.calls t).remaining ∧ c.slot = (s.calls t).slot)
    (hpc : c.pc ≠ .idle) (hdone : c.pc = .finished .done → c.remaining = 0)
    (hat : AtPc (r.setCall t c) c) : SerialInv s₀ (r.setCall t c) := by
  obtain ⟨hr, hdisk, hcount, hbits⟩ := hr
  obtain ⟨hc, hlba, hrem, hslot⟩ := hc
  have hself := Port.setCall_self r t c
  refine h.move t (h.others ht) ?_ hdisk ?_ ?_ ?_ ?_ ?_ ?_
  · intro u hu
    rw [Port.setCall_of_ne _ hu, hr]
  · rw [hself, hslot]
    exact hcount.symm ▸ h.slot_lt t ht
  · rwa [hself]
  · have hcourse := h.course t ht
    rw [OnCourse, hself, hc, hlba, hrem]
    rw [OnCourse, ← hdisk] at hcourse
    exact hcourse
  · rw [hself]
    exact hdone
  · rwa [hself]
  · intro slot hs
    have hs' : r.commandIssue slot = true := hs
    rw [hbits, hci slot] at hs'
    cases hs'

/-- A call turned away while every slot is taken. -/
theorem SerialInv.busy {s₀ s : Port α} (h : SerialInv s₀ s) {t : ℕ} (ht : (s.calls t).pc = .idle)
    (hfull : s.findCmdslot = none) :
    SerialInv s₀ ({ s with taskFileError := false }.setCall t
      { s.calls t with pc := .finished .busy }) := by
  have hne : ∀ u, (s.calls u).Active → u ≠ t := by
    rintro u hu rfl
    exact hu.1 ht
  have hself := Port.setCall_self { s with taskFileError := false } t
    { s.calls t with pc := .finished .busy }
  have hother := fun u (hu : u ≠ t) ↦ Port.setCall_of_ne { s with taskFileError := false } hu
    { s.calls t with pc := .finished .busy }
  have hactive : ∀ u, (({ s with taskFileError := false }.setCall t
      { s.calls t with pc := .finished .busy }).calls u).Active → u ≠ t ∧ (s.calls u).Active := by
    intro u hu
    have hut : u ≠ t := by
      rintro rfl
      rw [hself] at hu
      exact hu.2 .busy rfl
    rw [hother u hut] at hu
    exact ⟨hut, hu⟩
  refine ⟨h.disk_eq, ?_, ?_, ?_, ?_, ?_, ?_, ?_⟩
  · intro u hu
    obtain ⟨hut, hu⟩ := hactive u hu
    rw [hother u hut]
    exact h.slot_lt u hu
  · intro u hu
    have hut : u ≠ t := by
      rintro rfl
      rw [hself] at hu
      cases hu
    rw [hother u hut] at hu ⊢
    exact h.idle_eq u hu
  · intro u v hu hv
    exact h.single u v (hactive u hu).2 (hactive v hv).2
  · intro u hu
    have hut : u ≠ t := by
      rintro rfl
      rw [hself] at hu
      cases hu
    rw [hother u hut] at hu ⊢
    exact h.delivered u hu
  · intro u hu
    obtain ⟨hut, hu⟩ := hactive u hu
    have hcourse := h.course u hu
    rw [OnCourse, hother u hut]
    exact hcourse
  · -- the bit of a call under way is set, so its error flag is still to come
    intro u hu
    obtain ⟨hut, hu⟩ := hactive u hu
    have hat := h.atPc u hu
    rw [hother u hut]
    have hbit : s.commandIssue (s.calls u).slot = true := by
      have hall := List.find?_eq_none.mp hfull _ (List.mem_range.mpr (h.slot_lt u hu))
      simpa using hall
    cases hp : (s.calls u).pc with
    | issued =>
      simp only [AtPc, hp, hbit, if_true] at hat
      simp only [AtPc, hp, Port.setCall, hbit, if_true]
      exact hat
    | _ =>
      simp only [AtPc, hp] at hat ⊢
      try exact hat
  · intro slot hslot
    obtain ⟨u, hu, hus⟩ := h.issuedBy slot hslot
    refine ⟨u, ?_⟩
    rw [hother u (hne u (active_issued hu))]
    exact ⟨hu, hus⟩

/-- A call that picks a slot while no other is under way. -/
theorem SerialInv.pickSlot {s₀ s : Port α} (h₀ : Initial s₀) (h : SerialInv s₀ s) {t slot : ℕ}
    (ht : (s.calls t).pc = .idle) (hslot : s.findCmdslot = some slot)
    (hnone : ∀ u, ¬ (s.calls u).Active) :
    SerialInv s₀ ({ s with taskFileError := false }.setCall t
      { s.calls t with pc := .picked, slot := slot }) := by
  have hself := Port.setCall_self { s with taskFileError := false } t
    { s.calls t with pc := .picked, slot := slot }
  refine h.move t (fun u _ ↦ hnone u) ?_ rfl ?_ ?_ ?_ ?_ ?_ ?_
  · intro u hu
    exact Port.setCall_of_ne _ hu _
  · rw [hself]
    exact List.mem_range.mp (List.mem_of_find?_eq_some hslot)
  · rw [hself]
    exact fun he ↦ by cases he
  · have heq := h.idle_eq t ht
    rw [OnCourse, hself]
    simp only [Port.setCall, h.disk_eq]
    rw [heq, h₀.received t, List.nil_append]
  · rw [hself]
    exact fun he ↦ by cases he
  · rw [hself]
    trivial
  · intro slot' hs
    obtain ⟨u, hu, -⟩ := h.issuedBy slot' hs
    exact absurd (active_issued hu) (hnone u)

theorem active_of_pc {c : Call α} {pc : Pc} (h : c.pc = pc) (hidle : pc ≠ .idle)
    (hfin : ∀ ending, pc ≠ .finished ending) : c.Active :=
  ⟨h ▸ hidle, h ▸ hfin⟩

/-- The copy of a chunk that arrived keeps the call on course. -/
theorem SerialInv.copyOut {s₀ s : Port α} (h : SerialInv s₀ s) {t : ℕ}
    (hpc : (s.calls t).pc = .fetched) :
    SerialInv s₀ (s.setCall t { s.calls t with
      pc := .ready
      lba := (s.calls t).lba + Port.chunk (s.calls t)
      remaining := (s.calls t).remaining - Port.chunk (s.calls t)
      received := (s.calls t).received ++
        (s.buffers (s.calls t).buffer).take (Port.chunk (s.calls t)) }) := by
  have ha : (s.calls t).Active := active_of_pc hpc (by simp) (by simp)
  have hq := h.quiet (h.others ha) (by rw [hpc]; simp)
  have harrived : Arrived s (s.calls t) := by
    have hat := h.atPc t ha
    rwa [AtPc, hpc] at hat
  refine h.move t (h.others ha) (fun u hu ↦ Port.setCall_of_ne _ hu _) rfl ?_ ?_ ?_ ?_ ?_ ?_
  · rw [Port.setCall_self]
    exact h.slot_lt t ha
  · rw [Port.setCall_self]
    simp
  · have hcourse := h.course t ha
    rw [OnCourse, Port.setCall_self]
    simp only [Port.setCall]
    rw [harrived, List.append_assoc, ← sectors_append,
      Nat.add_sub_cancel' (Port.chunk_le (s.calls t))]
    exact hcourse
  · rw [Port.setCall_self]
    simp
  · rw [Port.setCall_self]
    trivial
  · intro slot hs
    have hs' : s.commandIssue slot = true := hs
    rw [hq slot] at hs'
    cases hs'

/-- A command goes out. -/
theorem SerialInv.issueCommand {s₀ s : Port α} (h : SerialInv s₀ s) {t : ℕ}
    (hpc : (s.calls t).pc = .filled) :
    SerialInv s₀ ({ s with
      commandIssue := Function.update s.commandIssue (s.calls t).slot true }.setCall t
        { s.calls t with pc := .issued }) := by
  have ha : (s.calls t).Active := active_of_pc hpc (by simp) (by simp)
  have hq := h.quiet (h.others ha) (by rw [hpc]; simp)
  have hloaded : Loaded s (s.calls t) := by
    have hat := h.atPc t ha
    rwa [AtPc, hpc] at hat
  refine h.move t (h.others ha) (fun u hu ↦ Port.setCall_of_ne _ hu _) rfl ?_ ?_ ?_ ?_ ?_ ?_
  · rw [Port.setCall_self]
    exact h.slot_lt t ha
  · rw [Port.setCall_self]
    simp
  · have hcourse := h.course t ha
    rw [OnCourse, Port.setCall_self]
    exact hcourse
  · rw [Port.setCall_self]
    simp
  · rw [Port.setCall_self]
    simp only [AtPc, Port.setCall, Function.update_self, if_true]
    exact hloaded
  · intro slot hs
    rw [Port.setCall_self]
    refine ⟨rfl, ?_⟩
    by_contra hne
    simp only [Port.setCall, Function.update_of_ne (Ne.symm hne), hq slot] at hs
    cases hs

/-- The device answers the one command there is. -/
theorem SerialInv.complete {s₀ s : Port α} (h : SerialInv s₀ s) {slot : ℕ}
    (hslot : s.commandIssue slot = true) (ok : Bool) : SerialInv s₀ (s.complete slot ok) := by
  obtain ⟨t, hpc, rfl⟩ := h.issuedBy slot hslot
  have ha := active_issued hpc
  have hloaded : Loaded s (s.calls t) := by
    have hat := h.atPc t ha
    simp only [AtPc, hpc, hslot, if_true] at hat
    exact hat
  have hbits : ∀ slot', Function.update s.commandIssue (s.calls t).slot false slot' = true →
      False := by
    intro slot' hs
    rw [Function.update_apply] at hs
    split at hs
    · cases hs
    · next hne =>
      obtain ⟨u, hu, hus⟩ := h.issuedBy slot' hs
      rw [h.single u t (active_issued hu) ha] at hus
      exact hne hus.symm
  have hmove : ∀ s' : Port α, s'.calls = s.calls → s'.disk = s.disk →
      s'.slotCount = s.slotCount →
      s'.commandIssue = Function.update s.commandIssue (s.calls t).slot false →
      (s'.taskFileError = false → Arrived s' (s'.calls t)) → SerialInv s₀ s' := by
    intro s' hcalls hdisk hcount hci harr
    refine h.move t (h.others ha) (fun u _ ↦ by rw [hcalls]) hdisk ?_ ?_ ?_ ?_ ?_ ?_
    · rw [hcalls, hcount]
      exact h.slot_lt t ha
    · rw [hcalls, hpc]
      simp
    · rw [OnCourse, hcalls, hdisk]
      exact h.course t ha
    · rw [hcalls, hpc]
      simp
    · simp only [AtPc, hcalls, hpc, hci, Function.update_self, Bool.false_eq_true, if_false]
      exact hcalls ▸ harr
    · intro slot' hs
      rw [hci] at hs
      exact absurd hs (hbits slot')
  rw [Loaded] at hloaded
  simp only [Port.complete, hloaded]
  cases ok with
  | false =>
    refine hmove _ rfl rfl rfl rfl fun he ↦ ?_
    simp at he
  | true =>
    refine hmove _ rfl rfl rfl rfl fun _ ↦ ?_
    have hchunk := Nat.mod_eq_of_lt (Port.chunk_lt (s.calls t))
    simp only [Arrived, if_true, Function.update_self, hchunk, sectors_mod]
    rw [List.take_append_of_le_length (by simp), List.take_of_length_le (by simp)]

/-- **A step keeps the invariant** as long as a slot is picked only while no call is under way. -/
theorem SerialInv.step {s₀ s s' : Port α} (h₀ : Initial s₀) (h : SerialInv s₀ s) {e : Event}
    (hs : s.step e = some s')
    (hno : ∀ t, e = .pick t → (s.calls t).pc = .idle → s.findCmdslot ≠ none →
      ∀ u, ¬ (s.calls u).Active) : SerialInv s₀ s' := by
  cases e with
  | pick t =>
    simp only [Port.step, Option.ite_none_right_eq_some, Option.some.injEq] at hs
    obtain ⟨hpc, rfl⟩ := hs
    have hsame : ({ s with taskFileError := false } : Port α).findCmdslot = s.findCmdslot := rfl
    cases hslot : s.findCmdslot with
    | none =>
      simp only [Port.pick, hsame, hslot]
      exact h.busy hpc hslot
    | some slot =>
      simp only [Port.pick, hsame, hslot]
      exact h.pickSlot h₀ hpc hslot (hno t rfl hpc (by simp [hslot]))
  | wait t granted =>
    simp only [Port.step, Option.ite_none_right_eq_some, Option.some.injEq] at hs
    obtain ⟨hpc, rfl⟩ := hs
    have ha : (s.calls t).Active := active_of_pc hpc (by simp) (by simp)
    have hq := h.quiet (h.others ha) (by rw [hpc]; simp)
    refine h.setPc ha hq (by exact ⟨rfl, rfl, rfl, rfl⟩) (by exact ⟨rfl, rfl, rfl, rfl⟩) ?_ ?_ ?_
    · cases granted <;> simp
    · cases granted <;> simp
    · cases granted <;> trivial
  | test t =>
    simp only [Port.step] at hs
    split at hs
    · next i hpc =>
      obtain rfl := Option.some.inj hs
      have ha : (s.calls t).Active := active_of_pc hpc (by simp) (by simp)
      have hq := h.quiet (h.others ha) (by rw [hpc]; simp)
      simp only [Port.test]
      split
      · split
        · exact h.setPc ha hq (by exact ⟨rfl, rfl, rfl, rfl⟩) (by exact ⟨rfl, rfl, rfl, rfl⟩)
            (by simp) (by simp) trivial
        · exact h.setPc ha hq (by exact ⟨rfl, rfl, rfl, rfl⟩) (by exact ⟨rfl, rfl, rfl, rfl⟩)
            (by simp) (by simp) trivial
      · exact h.setPc ha hq (by exact ⟨rfl, rfl, rfl, rfl⟩) (by exact ⟨rfl, rfl, rfl, rfl⟩)
          (by simp) (by simp) trivial
    · cases hs
  | header t =>
    simp only [Port.step, Option.ite_none_right_eq_some, Option.some.injEq] at hs
    obtain ⟨⟨hpc, -⟩, rfl⟩ := hs
    have ha : (s.calls t).Active := active_of_pc hpc (by simp) (by simp)
    have hq := h.quiet (h.others ha) (by rw [hpc]; simp)
    exact h.setPc ha hq (by exact ⟨rfl, rfl, rfl, rfl⟩) (by exact ⟨rfl, rfl, rfl, rfl⟩) (by simp)
      (by simp) trivial
  | table t =>
    simp only [Port.step, Option.ite_none_right_eq_some, Option.some.injEq] at hs
    obtain ⟨hpc, rfl⟩ := hs
    have ha : (s.calls t).Active := active_of_pc hpc (by simp) (by simp)
    have hq := h.quiet (h.others ha) (by rw [hpc]; simp)
    refine h.setPc ha hq (by exact ⟨rfl, rfl, rfl, rfl⟩) (by exact ⟨rfl, rfl, rfl, rfl⟩) (by simp)
      (by simp) ?_
    exact Function.update_self ..
  | issue t ready =>
    simp only [Port.step, Option.ite_none_right_eq_some] at hs
    obtain ⟨hpc, hs⟩ := hs
    split at hs
    · obtain rfl := Option.some.inj hs
      exact h.issueCommand hpc
    · obtain rfl := Option.some.inj hs
      have ha : (s.calls t).Active := active_of_pc hpc (by simp) (by simp)
      have hq := h.quiet (h.others ha) (by rw [hpc]; simp)
      exact h.setPc ha hq (by exact ⟨rfl, rfl, rfl, rfl⟩) (by exact ⟨rfl, rfl, rfl, rfl⟩) (by simp)
        (by simp) trivial
  | poll t =>
    simp only [Port.step, Option.ite_none_right_eq_some, Option.some.injEq] at hs
    obtain ⟨⟨hpc, hclear⟩, rfl⟩ := hs
    have ha := active_issued hpc
    have hq : ∀ slot, s.commandIssue slot = false := by
      intro slot
      cases hc : s.commandIssue slot with
      | false => rfl
      | true =>
        obtain ⟨u, hu, hus⟩ := h.issuedBy slot hc
        rw [h.single u t (active_issued hu) ha] at hus
        rw [← hus, hclear] at hc
        cases hc
    have hat := h.atPc t ha
    simp only [AtPc, hpc, hclear, Bool.false_eq_true, if_false] at hat
    refine h.setPc ha hq (by exact ⟨rfl, rfl, rfl, rfl⟩) (by exact ⟨rfl, rfl, rfl, rfl⟩) ?_ ?_ ?_
    · cases s.taskFileError <;> simp
    · cases s.taskFileError <;> simp
    · cases herr : s.taskFileError with
      | true => trivial
      | false => exact hat herr
  | copy t =>
    simp only [Port.step, Option.ite_none_right_eq_some, Option.some.injEq] at hs
    obtain ⟨hpc, rfl⟩ := hs
    exact h.copyOut hpc
  | release t =>
    simp only [Port.step] at hs
    split at hs
    · next hpc =>
      obtain rfl := Option.some.inj hs
      have ha : (s.calls t).Active := active_of_pc hpc.1 (by simp) (by simp)
      have hq := h.quiet (h.others ha) (by rw [hpc.1]; simp)
      rw [Port.release]
      exact h.setPc ha hq (by exact ⟨rfl, rfl, rfl, rfl⟩) (by exact ⟨rfl, rfl, rfl, rfl⟩) (by simp)
        (fun _ ↦ hpc.2) trivial
    · simp only [Option.ite_none_right_eq_some, Option.some.injEq] at hs
      obtain ⟨hpc, rfl⟩ := hs
      have ha : (s.calls t).Active := active_of_pc hpc (by simp) (by simp)
      have hq := h.quiet (h.others ha) (by rw [hpc]; simp)
      rw [Port.release]
      exact h.setPc ha hq (by exact ⟨rfl, rfl, rfl, rfl⟩) (by exact ⟨rfl, rfl, rfl, rfl⟩) (by simp)
        (by simp) trivial
  | complete slot ok =>
    simp only [Port.step, Option.ite_none_right_eq_some, Option.some.injEq] at hs
    obtain ⟨hslot, rfl⟩ := hs
    exact h.complete hslot ok

theorem NoOverlap.mono {s₀ : Port α} {past events : List Event} (h : NoOverlap s₀ events)
    (hp : past <+: events) : NoOverlap s₀ past :=
  fun past' t hp' ↦ h past' t (hp'.trans hp)

theorem serialInv_of_run {s₀ s : Port α} (h₀ : Initial s₀) {events : List Event}
    (hno : NoOverlap s₀ events) (hs : s₀.run events = some s) : SerialInv s₀ s := by
  induction events using List.reverseRecOn generalizing s with
  | nil =>
    obtain rfl := Option.some.inj hs
    exact serialInv_initial h₀
  | append_singleton events e ih =>
    cases hr : s₀.run events with
    | none =>
      rw [Port.run_append, hr] at hs
      cases hs
    | some s₁ =>
      rw [Port.run_snoc hr] at hs
      have h₁ := ih (hno.mono (List.prefix_append _ _)) hr
      refine h₁.step h₀ hs fun t he ↦ ?_
      subst he
      exact hno events t (List.prefix_refl _) s₁ hr

/-- **When concurrent reads keep apart**: at every point of an interleaving the calls under way
have slots, tables and buffers of their own and every caller that succeeded has its own sectors,
exactly when no call picks a slot while another is under way. -/
theorem reads_exclusive_iff {s₀ : Port α} (h₀ : Initial s₀) (events : List Event) :
    (∀ past, past <+: events → ∀ s, s₀.run past = some s → Exclusive s ∧ Delivered s₀ s) ↔
      NoOverlap s₀ events := by
  constructor
  · intro h past t hp s hs hidle hslot u hu
    obtain ⟨slot, hslot⟩ := Option.ne_none_iff_exists'.mp hslot
    have hut : t ≠ u := by
      rintro rfl
      exact hu.1 hidle
    have hstep : s₀.run (past ++ [.pick t]) = some (s.pick t) := by
      rw [Port.run_snoc hs, Port.step, if_pos hidle]
    have hpick : s.pick t = { s with taskFileError := false }.setCall t
        { s.calls t with pc := .picked, slot := slot } := by
      have hsame : ({ s with taskFileError := false } : Port α).findCmdslot = s.findCmdslot := rfl
      simp only [Port.pick, hsame, hslot]
    have hex := (h _ hp _ hstep).1 t u hut
    rw [hpick, Port.setCall_self, Port.setCall_of_ne _ hut.symm] at hex
    exact (hex (active_of_pc rfl (by simp) (by simp)) hu).2.1 rfl
  · intro hno past hp s hs
    have hinv := serialInv_of_run h₀ (hno.mono hp) hs
    refine ⟨?_, hinv.delivered⟩
    intro t u htu ht hu
    exact absurd (hinv.single t u ht hu) htu

/-- A port with two slots and a disk whose sectors are their numbers; thread 0 wants sector 5 and
every other thread sector 9. -/
def samplePort : Port ℕ where
  disk := fun n ↦ n
  slotCount := 2
  cmdListBase := 0
  commandIssue := fun _ ↦ false
  taskFileError := false
  headers := fun _ ↦ 0
  tables := fun _ ↦ none
  bufLocks := fun _ ↦ false
  buffers := fun _ ↦ [0]
  calls := fun t ↦
    { pc := .idle, lba := if t = 0 then 5 else 9, remaining := 1, slot := 0, buffer := 0,
      received := [] }

theorem initial_samplePort : Initial samplePort := ⟨fun _ ↦ rfl, fun _ ↦ rfl, fun _ ↦ rfl⟩

theorem reads_exclusive_samplePort :
    Initial samplePort ∧
    ((∀ past, past <+: [.pick 0, .wait 0 true] → ∀ s, samplePort.run past = some s →
      Exclusive s ∧ Delivered samplePort s) ↔ NoOverlap samplePort [.pick 0, .wait 0 true]) :=
  ⟨initial_samplePort, reads_exclusive_iff initial_samplePort _⟩

/-- **Two reads at once**: both pick slot 0, the second fills the table over the first, and the
command the first issues moves sector 9 into the second's buffer.  The first caller is told it has
its sector and gets what was left in its own buffer. -/
theorem reads_mixed_up :
    ∃ s, samplePort.run [.pick 0, .pick 1, .wait 0 true, .wait 1 true, .test 0, .test 1, .test 1,
        .header 0, .table 0, .header 1, .table 1, .issue 0 true, .complete 0 true, .poll 0,
        .copy 0, .release 0] = some s ∧
      (s.calls 0).pc = .finished .done ∧ (s.calls 0).received = [0] ∧
      ¬ Delivered samplePort s ∧
    ∃ s', samplePort.run [.pick 0, .pick 1] = some s' ∧ ¬ Exclusive s' := by
  refine ⟨_, rfl, by decide, by decide, ?_, _, rfl, ?_⟩
  · intro h
    have h0 := h 0 (by decide)
    revert h0
    decide
  · intro h
    have hpicked : ∀ c : Call ℕ, c.pc = .picked → c.Active := fun c hc ↦
      active_of_pc hc (by simp) (by simp)
    exact (h 0 1 (by decide) (hpicked _ (by decide)) (hpicked _ (by decide))).1 (by decide)

end Ahci

end Borrrdex
