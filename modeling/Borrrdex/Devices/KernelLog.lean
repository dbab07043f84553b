import Borrrdex.Basic
import Borrrdex.Lib.RingLog
import Borrrdex.Lib.Runs

/-!
# The kernel's log

`log_device` keeps the end of the log in a ring of a megabyte.  While the ring fills, `_size` is
where it ends; then `_position` is where the oldest byte is, and the next one goes.

Whatever passes the end of the ring is split in two, and the first part is meant to be what is left
there: `MAX_SIZE - _position`.  The source adds the size to it.  A read also takes the end of what
is asked for as its length while the ring fills.

`Fits` are the calls for which nothing is split, and reads of the beginning.
`Journal.serves_of_fits` says that these are the calls that do what they should, in every state that
a log of such calls gets to.

The copies that a call makes are noted down: each is between a run of cells of the ring and a run of
the caller's bytes.
-/

set_option autoImplicit false

namespace Borrrdex

/-- `log_device`. -/
structure LogDevice where
  logBuffer : Option (ℕ → Byte)
  position : U64
  size : U64
  enabled : Bool

/-- A `memcpy` between the ring and the caller's buffer. -/
structure LogCopy where
  ring : ℕ
  caller : ℕ
  len : ℕ

namespace LogDevice

/-- `MAX_SIZE`. -/
def maxSize : U64 := 0x100000

/-- `kstd::min`. -/
def kmin (x y : U64) : U64 := if x > y then y else x

/-- A new device. -/
def new : LogDevice := ⟨none, 0, 0, false⟩

/-- `enable`, with what `malloc` has found in the block. -/
def enable (block : ℕ → Byte) (d : LogDevice) : LogDevice :=
  match d.logBuffer with
  | some _ => { d with enabled := true }
  | none =>
    { d with
      logBuffer := some (Function.update (Function.update block 0 0) 1 1)
      enabled := true }

def disable (d : LogDevice) : LogDevice := { d with enabled := false }

/-- What a read returns, what is in the caller's buffer then, and the copies it has made. -/
structure ReadResult where
  ret : U64
  dst : ℕ → Byte
  copies : List LogCopy

/-- A copy to the caller. -/
def ReadResult.copy (log : ℕ → Byte) (c : LogCopy) (r : ReadResult) : ReadResult :=
  { r with
    dst := overwrite r.dst c.caller c.len fun k ↦ log (c.ring + k)
    copies := r.copies ++ [c] }

/-- `log_device::read`. -/
def read (offset n : U64) (dst : ℕ → Byte) (d : LogDevice) : ReadResult :=
  match d.logBuffer with
  | none => ⟨0, dst, []⟩
  | some log =>
    let n := kmin maxSize n
    if d.size < maxSize then
      let n := kmin d.size (offset + n)
      ReadResult.copy log ⟨offset.toNat, 0, n.toNat⟩ ⟨n, dst, []⟩
    else if d.position + offset + n < maxSize then
      ReadResult.copy log ⟨(d.position + offset).toNat, 0, n.toNat⟩ ⟨n, dst, []⟩
    else
      let remaining := maxSize - d.position + offset + n
      ReadResult.copy log ⟨0, remaining.toNat, (n - remaining).toNat⟩
        (ReadResult.copy log ⟨(d.position + offset).toNat, 0, remaining.toNat⟩ ⟨n, dst, []⟩)

/-- What a write returns (`none` is `-EINVAL`), the device then, and the copies it has made. -/
structure WriteResult where
  ret : Option U64
  device : LogDevice
  copies : List LogCopy

/-- A copy from the caller. -/
def put (b : ℕ → Byte) (c : LogCopy) (log : ℕ → Byte) : ℕ → Byte :=
  overwrite log c.ring c.len fun k ↦ b (c.caller + k)

/-- The copies of a write that splits it at `start`, and the new `_position`. -/
def split (b : ℕ → Byte) (start n : U64) (log : ℕ → Byte) (d : LogDevice) : WriteResult :=
  let toWrite := maxSize - start + n
  let remaining := n - toWrite
  let first : LogCopy := ⟨start.toNat, 0, toWrite.toNat⟩
  let second : LogCopy := ⟨0, toWrite.toNat, remaining.toNat⟩
  { ret := some n
    device := { d with
      logBuffer := some (put b second (put b first log))
      position := remaining
      size := maxSize }
    copies := [first, second] }

/-- `log_device::write`.  An enabled device has a buffer. -/
def write (offset n : U64) (b : ℕ → Byte) (d : LogDevice) : WriteResult :=
  if offset ≠ 0 then ⟨none, d, []⟩
  else if d.enabled = false then ⟨some 0, d, []⟩
  else
    match d.logBuffer with
    | none => ⟨some 0, d, []⟩
    | some log =>
      let n := kmin n maxSize
      if d.size = maxSize then
        if d.position + n ≤ maxSize then
          let c : LogCopy := ⟨d.position.toNat, 0, n.toNat⟩
          ⟨some n, { d with logBuffer := some (put b c log), position := d.position + n }, [c]⟩
        else split b d.position n log d
      else if d.size + n ≤ maxSize then
        let c : LogCopy := ⟨d.size.toNat, 0, n.toNat⟩
        ⟨some n, { d with logBuffer := some (put b c log), size := d.size + n }, [c]⟩
      else split b d.size n log d

/-! ## The log -/

/-- `MAX_SIZE`, as a number. -/
@[irreducible] def capacity : ℕ := 0x100000

theorem capacity_eq : capacity = 2 ^ 20 := by
  rw [capacity]
  rfl

theorem toNat_maxSize : maxSize.toNat = capacity := capacity_eq.symm

theorem toNat_kmin (x y : U64) : (kmin x y).toNat = min x.toNat y.toNat := by
  rw [kmin]
  split
  · next h => exact (min_eq_right (BitVec.lt_def.mp h).le).symm
  · next h => exact (min_eq_left (not_lt.mp fun h' ↦ h (BitVec.lt_def.mpr h'))).symm

/-- What is done to a log. -/
inductive Call where
  | enable (block : ℕ → Byte)
  | disable
  | write (offset n : U64) (b : ℕ → Byte)
  | read (offset n : U64) (dst : ℕ → Byte)

/-- A device, with all that has been written. -/
structure Journal where
  device : LogDevice
  history : List Byte

def Journal.step (j : Journal) : Call → Option Journal
  | .enable block => some { j with device := j.device.enable block }
  | .disable => some { j with device := j.device.disable }
  | .write offset n b =>
    let r := j.device.write offset n b
    some ⟨r.device, j.history ++ prefixOf b (r.ret.getD 0).toNat⟩
  | .read _ _ _ => some j

def journalMachine : Machine Journal Call where
  initial j := j.device = new ∧ j.history = []
  step := Journal.step

/-- A copy stays inside the ring and the caller's `n` bytes. -/
def Inside (n : ℕ) (c : LogCopy) : Prop := ∀ k < c.len, c.ring + k < capacity ∧ c.caller + k < n

/-- A call does what it should. -/
def Journal.Serves (j : Journal) : Call → Prop
  | .enable _ => True
  | .disable => True
  | .write offset n b => ∀ c ∈ (j.device.write offset n b).copies, Inside n.toNat c
  | .read offset n dst =>
    let r := j.device.read offset n dst
    prefixOf r.dst r.ret.toNat = ((recent capacity j.history).drop offset.toNat).take n.toNat ∧
      ∀ c ∈ r.copies, Inside n.toNat c

/-- The write does not pass the end of the ring. -/
def WriteFits (d : LogDevice) (n : ℕ) : Prop :=
  d.size = maxSize ∧ d.position.toNat + min n capacity ≤ capacity ∨
    d.size ≠ maxSize ∧ d.size.toNat + min n capacity ≤ capacity

/-- A log that is not full is read from its beginning, or has nothing to read at the offset (and the
end of what is asked for wraps to zero). -/
def ReadFitsFilling (d : LogDevice) (offset n : U64) : Prop :=
  offset = 0 ∨ d.size = 0 ∨ d.size.toNat ≤ offset.toNat ∧ offset + kmin maxSize n = 0

/-- What is read of a full log ends before the end of the ring, or there is nothing to read. -/
def ReadFitsFull (d : LogDevice) (offset n : U64) : Prop :=
  d.position.toNat + offset.toNat + min capacity n.toNat < capacity ∨
    n = 0 ∧ (d.position + offset < maxSize ∨ maxSize - d.position + offset = 0)

/-- The calls that the code gets right. -/
def Fits (d : LogDevice) : Call → Prop
  | .enable _ => True
  | .disable => True
  | .write offset n _ => offset ≠ 0 ∨ d.enabled = false ∨ d.WriteFits n.toNat
  | .read offset n _ => d.logBuffer = none ∨
      d.size ≠ maxSize ∧ d.ReadFitsFilling offset n ∨ d.size = maxSize ∧ d.ReadFitsFull offset n

/-- The ring has the end of the history. -/
structure Journal.Ok (j : Journal) : Prop where
  size : j.device.size.toNat = min capacity j.history.length
  position_le : j.device.position.toNat ≤ capacity
  filling : j.device.size ≠ maxSize → j.device.position = 0
  full : j.device.size = maxSize → j.device.position.toNat % capacity = j.history.length % capacity
  buffer : j.device.enabled = true → j.device.logBuffer ≠ none
  empty : j.device.logBuffer = none → j.history = []
  records : ∀ log ∈ j.device.logBuffer, Records capacity log j.history

variable {d : LogDevice} {j j' : Journal} {offset n : U64} {b dst log : ℕ → Byte} {call : Call}

/-! ## Writing -/

/-- How many bytes a write takes. -/
theorem toNat_taken (n : U64) : (kmin n maxSize).toNat = min n.toNat capacity := by
  rw [toNat_kmin, toNat_maxSize]

theorem add_le_maxSize_iff {x : U64} (hx : x.toNat ≤ capacity) (n : U64) :
    x + kmin n maxSize ≤ maxSize ↔ x.toNat + min n.toNat capacity ≤ capacity := by
  have hcapacity := capacity_eq
  have htaken := toNat_taken n
  rw [BitVec.le_def, toNat_maxSize, BitVec.toNat_add, htaken, Nat.mod_eq_of_lt (by omega)]

theorem write_offset (h : offset ≠ 0) : d.write offset n b = ⟨none, d, []⟩ := by
  rw [write, if_pos h]

theorem write_disabled (h : d.enabled = false) : d.write 0 n b = ⟨some 0, d, []⟩ := by
  simp [write, h]

/-- A write to an enabled device. -/
theorem write_enabled (h : d.enabled = true) (hlog : d.logBuffer = some log) :
    d.write 0 n b =
      if d.size = maxSize then
        if d.position + kmin n maxSize ≤ maxSize then
          ⟨some (kmin n maxSize),
            { d with
              logBuffer := some (put b ⟨d.position.toNat, 0, (kmin n maxSize).toNat⟩ log)
              position := d.position + kmin n maxSize },
            [⟨d.position.toNat, 0, (kmin n maxSize).toNat⟩]⟩
        else split b d.position (kmin n maxSize) log d
      else if d.size + kmin n maxSize ≤ maxSize then
        ⟨some (kmin n maxSize),
          { d with
            logBuffer := some (put b ⟨d.size.toNat, 0, (kmin n maxSize).toNat⟩ log)
            size := d.size + kmin n maxSize },
          [⟨d.size.toNat, 0, (kmin n maxSize).toNat⟩]⟩
      else split b d.size (kmin n maxSize) log d := by
  simp [write, h, hlog]

theorem inside_single {start : ℕ} (h : start + min n.toNat capacity ≤ capacity) :
    ∀ c ∈ [(⟨start, 0, (kmin n maxSize).toNat⟩ : LogCopy)], Inside n.toNat c := by
  intro c hc k hk
  obtain rfl := List.mem_singleton.mp hc
  rw [toNat_taken] at hk
  dsimp only at *
  omega

/-- A write that is split leaves the ring. -/
theorem not_inside_split {start : U64} (hstart : start.toNat ≤ capacity)
    (hsplit : capacity < start.toNat + min n.toNat capacity) :
    ¬ ∀ c ∈ (split b start (kmin n maxSize) log d).copies, Inside n.toNat c := by
  have hcapacity := capacity_eq
  have htaken := toNat_taken n
  have hmax := toNat_maxSize
  have hlen : (maxSize - start + kmin n maxSize).toNat =
      capacity - start.toNat + min n.toNat capacity := by
    rw [BitVec.toNat_add,
      BitVec.toNat_sub_of_le (BitVec.le_def.mpr (hstart.trans_eq hmax.symm)), htaken,
      hmax]
    exact Nat.mod_eq_of_lt (by omega)
  intro hinside
  have hlast := (hinside _ List.mem_cons_self
    (capacity - start.toNat + min n.toNat capacity - 1) (by
    dsimp only
    omega)).1
  dsimp only at hlast
  omega

/-- **The writes that stay inside** are those that are not split. -/
theorem serves_write (h : j.Ok) :
    j.Serves (.write offset n b) ↔ j.device.Fits (.write offset n b) := by
  rw [Journal.Serves, Fits]
  by_cases hoffset : offset = 0
  · subst hoffset
    cases henabled : j.device.enabled with
    | false =>
      rw [write_disabled henabled]
      exact iff_of_true (List.forall_mem_nil _) (.inr (.inl rfl))
    | true =>
      obtain ⟨log, hlog⟩ := Option.ne_none_iff_exists'.mp (h.buffer henabled)
      have hsize := h.size
      have hwrite := write_enabled (n := n) (b := b) henabled hlog
      have hrest : ((0 : U64) ≠ 0 ∨ true = false ∨ j.device.WriteFits n.toNat) ↔
          j.device.WriteFits n.toNat := by simp
      rw [hwrite, hrest, WriteFits]
      by_cases hfull : j.device.size = maxSize
      · have hiff := add_le_maxSize_iff h.position_le n
        rw [if_pos hfull]
        split
        · next hle => exact iff_of_true (inside_single (hiff.mp hle)) (.inl ⟨hfull, hiff.mp hle⟩)
        · next hlt =>
          refine iff_of_false (not_inside_split h.position_le (not_le.mp (hiff.not.mp hlt))) ?_
          rintro (⟨-, hle⟩ | ⟨hnot, -⟩)
          · exact hlt (hiff.mpr hle)
          · exact hnot hfull
      · have hroom : j.device.size.toNat ≤ capacity := by omega
        have hiff := add_le_maxSize_iff hroom n
        rw [if_neg hfull]
        split
        · next hle => exact iff_of_true (inside_single (hiff.mp hle)) (.inr ⟨hfull, hiff.mp hle⟩)
        · next hlt =>
          refine iff_of_false (not_inside_split hroom (not_le.mp (hiff.not.mp hlt))) ?_
          rintro (⟨hyes, -⟩ | ⟨-, hle⟩)
          · exact hfull hyes
          · exact hlt (hiff.mpr hle)
  · exact iff_of_true (by simp [write_offset hoffset]) (.inl hoffset)

theorem put_eq (b : ℕ → Byte) (start n : ℕ) (log : ℕ → Byte) :
    put b ⟨start, 0, n⟩ log = overwrite log start n b := by
  simp [put]

theorem eq_maxSize_iff {x : U64} : x = maxSize ↔ x.toNat = capacity := by
  rw [BitVec.toNat_eq, toNat_maxSize]

/-- Bytes that are put where the history ends. -/
theorem records_put (h : Records capacity log j.history) {start m : ℕ}
    (hstart : m = 0 ∨ start = j.history.length % capacity) (hle : start + m ≤ capacity) :
    Records capacity (put b ⟨start, 0, m⟩ log) (j.history ++ prefixOf b m) := by
  rw [put_eq]
  obtain rfl | rfl := hstart
  · rw [overwrite_zero, prefixOf_zero, List.append_nil]
    exact h
  · exact h.write b hle

/-- A write to a full ring that does not pass its end. -/
theorem Journal.Ok.write_full (h : j.Ok) (hlog : j.device.logBuffer = some log)
    (hfull : j.device.size = maxSize)
    (hle : j.device.position.toNat + min n.toNat capacity ≤ capacity) :
    Journal.Ok ⟨{ j.device with
      logBuffer := some (put b ⟨j.device.position.toNat, 0, (kmin n maxSize).toNat⟩ log)
      position := j.device.position + kmin n maxSize }, j.history ++
        prefixOf b (kmin n maxSize).toNat⟩ := by
  have hcapacity := capacity_eq
  have hsize := h.size
  have htaken := toNat_taken n
  have hfull' := eq_maxSize_iff.mp hfull
  have hend : (j.device.position + kmin n maxSize).toNat =
      j.device.position.toNat + (kmin n maxSize).toNat := by
    rw [BitVec.toNat_add, Nat.mod_eq_of_lt (by omega)]
  have hmod := h.full hfull
  constructor
  · simp only [List.length_append, length_prefixOf]
    omega
  · simp only [hend]
    omega
  · exact fun hnot ↦ absurd hfull hnot
  · intro _
    simp only [hend, List.length_append, length_prefixOf]
    exact Nat.ModEq.add_right _ hmod
  · exact fun _ ↦ Option.some_ne_none _
  · exact fun hnone ↦ absurd hnone (Option.some_ne_none _)
  · rintro _ ⟨⟩
    refine records_put (h.records log hlog) ?_ (by omega)
    obtain hzero | hpos := Nat.eq_zero_or_pos (kmin n maxSize).toNat
    · exact .inl hzero
    · rw [← hmod, Nat.mod_eq_of_lt (by omega)]
      exact .inr rfl

/-- A write to a ring that fills. -/
theorem Journal.Ok.write_filling (h : j.Ok) (hlog : j.device.logBuffer = some log)
    (hfull : j.device.size ≠ maxSize)
    (hle : j.device.size.toNat + min n.toNat capacity ≤ capacity) :
    Journal.Ok ⟨{ j.device with
      logBuffer := some (put b ⟨j.device.size.toNat, 0, (kmin n maxSize).toNat⟩ log)
      size := j.device.size + kmin n maxSize }, j.history ++
        prefixOf b (kmin n maxSize).toNat⟩ := by
  have hcapacity := capacity_eq
  have hsize := h.size
  have htaken := toNat_taken n
  have hfull' := eq_maxSize_iff.not.mp hfull
  have hzero := h.filling hfull
  have hend : (j.device.size + kmin n maxSize).toNat =
      j.device.size.toNat + (kmin n maxSize).toNat := by
    rw [BitVec.toNat_add, Nat.mod_eq_of_lt (by omega)]
  constructor
  · simp only [hend, List.length_append, length_prefixOf]
    omega
  · exact h.position_le
  · exact fun _ ↦ hzero
  · intro hnow
    have hall : (j.history ++ prefixOf b (kmin n maxSize).toNat).length = capacity := by
      rw [List.length_append, length_prefixOf]
      have hreached : (j.device.size + kmin n maxSize).toNat = capacity := eq_maxSize_iff.mp hnow
      omega
    simp only [hzero, hall, Nat.mod_self]
    exact Nat.zero_mod _
  · exact fun _ ↦ Option.some_ne_none _
  · exact fun hnone ↦ absurd hnone (Option.some_ne_none _)
  · rintro _ ⟨⟩
    refine records_put (h.records log hlog) (.inr ?_) (by omega)
    rw [Nat.mod_eq_of_lt (by omega)]
    omega

/-- **A write that is not split keeps the end of the history in the ring.** -/
theorem Journal.Ok.write (h : j.Ok) (hfits : j.device.Fits (.write offset n b))
    (hs : j.step (.write offset n b) = some j') : j'.Ok := by
  have hnothing (o : Option U64) (ho : o.getD 0 = 0) :
      (⟨j.device, j.history ++ prefixOf b (o.getD 0).toNat⟩ : Journal) = j := by
    rw [ho]
    simp
  rw [Journal.step, Option.some.injEq] at hs
  by_cases hoffset : offset = 0
  · subst hoffset
    cases henabled : j.device.enabled with
    | false =>
      rw [write_disabled henabled, hnothing _ rfl] at hs
      exact hs ▸ h
    | true =>
      obtain ⟨log, hlog⟩ := Option.ne_none_iff_exists'.mp (h.buffer henabled)
      have hroom : j.device.WriteFits n.toNat := by
        rw [Fits] at hfits
        simpa [henabled] using hfits
      rw [write_enabled henabled hlog] at hs
      obtain ⟨hfull, hle⟩ | ⟨hfull, hle⟩ := hroom
      · rw [if_pos hfull, if_pos ((add_le_maxSize_iff h.position_le n).mpr hle)] at hs
        exact hs ▸ h.write_full hlog hfull hle
      · have hsize := h.size
        rw [if_neg hfull, if_pos ((add_le_maxSize_iff (by omega) n).mpr hle)] at hs
        exact hs ▸ h.write_filling hlog hfull hle
  · rw [write_offset hoffset, hnothing _ rfl] at hs
    exact hs ▸ h

/-! ## Reading -/

theorem read_none (h : d.logBuffer = none) : d.read offset n dst = ⟨0, dst, []⟩ := by
  rw [read, h]

/-- A read while the ring fills. -/
theorem read_filling (h : d.logBuffer = some log) (hsize : d.size < maxSize) :
    d.read offset n dst =
      ReadResult.copy log ⟨offset.toNat, 0, (kmin d.size (offset + kmin maxSize n)).toNat⟩
        ⟨kmin d.size (offset + kmin maxSize n), dst, []⟩ := by
  simp [read, h, hsize]

/-- A read of a full ring that is not split. -/
theorem read_straight (h : d.logBuffer = some log) (hsize : ¬ d.size < maxSize)
    (hsum : d.position + offset + kmin maxSize n < maxSize) :
    d.read offset n dst =
      ReadResult.copy log ⟨(d.position + offset).toNat, 0, (kmin maxSize n).toNat⟩
        ⟨kmin maxSize n, dst, []⟩ := by
  simp [read, h, hsize, hsum]

/-- One that is. -/
theorem read_split (h : d.logBuffer = some log) (hsize : ¬ d.size < maxSize)
    (hsum : ¬ d.position + offset + kmin maxSize n < maxSize) {remaining : U64}
    (hremaining : maxSize - d.position + offset + kmin maxSize n = remaining) :
    d.read offset n dst =
      ReadResult.copy log ⟨0, remaining.toNat, (kmin maxSize n - remaining).toNat⟩
        (ReadResult.copy log ⟨(d.position + offset).toNat, 0, remaining.toNat⟩
          ⟨kmin maxSize n, dst, []⟩) := by
  simp [read, h, hsize, hsum, hremaining]

theorem ReadResult.copy_copies (c : LogCopy) (r : ReadResult) :
    (r.copy log c).copies = r.copies ++ [c] := rfl

/-- The last bytes, while the ring fills. -/
theorem Journal.Ok.recent_filling (h : j.Ok) (hlog : j.device.logBuffer = some log)
    (hfull : j.device.size ≠ maxSize) :
    recent capacity j.history = prefixOf log j.device.size.toNat := by
  have hsize := h.size
  have hfull' := eq_maxSize_iff.not.mp hfull
  rw [(h.records log hlog).recent_eq, ← hsize]
  refine prefixOf_congr fun k hk ↦ ?_
  rw [show j.history.length - capacity = 0 by omega, Nat.zero_add, Nat.mod_eq_of_lt (by omega)]

/-- The last bytes, when it is full. -/
theorem Journal.Ok.recent_full (h : j.Ok) (hlog : j.device.logBuffer = some log)
    (hfull : j.device.size = maxSize) :
    recent capacity j.history =
      prefixOf (fun k ↦ log ((j.device.position.toNat + k) % capacity)) capacity := by
  have hsize := h.size
  have hfull' := eq_maxSize_iff.mp hfull
  rw [(h.records log hlog).recent_eq, ← hsize, hfull']
  refine prefixOf_congr fun k _ ↦ congrArg log ?_
  have hmod := h.full hfull
  have hstart : (j.history.length - capacity) % capacity = j.device.position.toNat % capacity := by
    rw [hmod, ← Nat.mod_eq_sub_mod (by omega)]
  exact Nat.ModEq.add_right k hstart

theorem toNat_asked (n : U64) : (kmin maxSize n).toNat = min capacity n.toNat := by
  rw [toNat_kmin, toNat_maxSize]

/-- Two beginnings of one sequence are the same if they are as long. -/
theorem prefixOf_inj {f : ℕ → Byte} {k m : ℕ} : prefixOf f k = prefixOf f m ↔ k = m :=
  ⟨fun h ↦ by simpa using congrArg List.length h, fun h ↦ h ▸ rfl⟩

theorem inside_nil {k m : ℕ} : Inside m ⟨k, 0, 0⟩ := fun i hi ↦ absurd hi (Nat.not_lt_zero i)

/-- The length of a read while the ring fills. -/
theorem length_filling_iff {size : ℕ} (hsize : d.size.toNat = size) (hlt : size < capacity) :
    min size (offset + kmin maxSize n).toNat = min n.toNat (size - offset.toNat) ↔
      d.ReadFitsFilling offset n := by
  have hcapacity := capacity_eq
  have hasked := toNat_asked n
  have hzero : (0 : U64).toNat = 0 := rfl
  rw [ReadFitsFilling, BitVec.toNat_eq, BitVec.toNat_eq, BitVec.toNat_eq, BitVec.toNat_add, hasked,
    hsize, hzero]
  obtain hle | hinside := le_or_gt size offset.toNat
  · omega
  · rw [Nat.mod_eq_of_lt (by omega)]
    omega

/-- A read while the ring fills returns what it should just if it has the right length. -/
theorem serves_filling (h : j.Ok) (hlog : j.device.logBuffer = some log)
    (hfull : j.device.size ≠ maxSize) :
    j.Serves (.read offset n dst) ↔ j.device.ReadFitsFilling offset n := by
  have hsize := h.size
  have hfull' := eq_maxSize_iff.not.mp hfull
  have hlt : j.device.size < maxSize := by
    rw [BitVec.lt_def, toNat_maxSize]
    omega
  rw [Journal.Serves, h.recent_filling hlog hfull, drop_prefixOf, take_prefixOf,
    read_filling hlog hlt, ← length_filling_iff rfl (by omega), ← toNat_kmin]
  generalize kmin j.device.size (offset + kmin maxSize n) = m
  simp only [ReadResult.copy, List.nil_append, List.mem_singleton, forall_eq, prefixOf_overwrite,
    prefixOf_inj]
  refine and_iff_left_of_imp fun hm k hk ↦ ?_
  dsimp only at *
  omega

/-- A read of a full ring has the right length only if it ends with the ring. -/
theorem le_of_length {s o m : ℕ} (hs : s = min capacity m) (hlength : s = min m (capacity - o))
    (hpos : 0 < m) : o + s ≤ capacity := by
  have hcapacity := capacity_eq
  omega

theorem kmin_zero : kmin maxSize 0 = 0 := rfl

theorem add_kmin_zero (x : U64) : x + kmin maxSize 0 = x := by
  rw [kmin_zero]
  simp

/-- A read of a full ring that is not split. -/
theorem serves_straight (h : j.Ok) (hlog : j.device.logBuffer = some log)
    (hfull : j.device.size = maxSize)
    (hsum : j.device.position + offset + kmin maxSize n < maxSize) :
    j.Serves (.read offset n dst) ↔ j.device.ReadFitsFull offset n := by
  have hcapacity := capacity_eq
  have hasked := toNat_asked n
  have hposition := h.position_le
  have hnot : ¬ j.device.size < maxSize := hfull ▸ BitVec.lt_irrefl _
  have hless := hsum
  rw [BitVec.lt_def, toNat_maxSize, BitVec.toNat_add, BitVec.toNat_add, hasked] at hless
  rw [Journal.Serves, h.recent_full hlog hfull, drop_prefixOf, take_prefixOf,
    read_straight hlog hnot hsum]
  simp only [ReadResult.copy, List.nil_append, List.mem_singleton, forall_eq,
    prefixOf_overwrite, hasked]
  constructor
  · rintro ⟨hbytes, -⟩
    have hlength := congrArg List.length hbytes
    rw [length_prefixOf, length_prefixOf] at hlength
    obtain hzero | hpos := Nat.eq_zero_or_pos n.toNat
    · have hn : n = 0 := BitVec.toNat_eq.mpr hzero
      rw [hn, add_kmin_zero] at hsum
      exact .inr ⟨hn, .inl hsum⟩
    · have hle := le_of_length rfl hlength hpos
      rw [Nat.mod_add_mod, Nat.mod_eq_of_lt (by omega)] at hless
      exact .inl hless
  · rintro (hle | ⟨rfl, -⟩)
    · have hstart : (j.device.position + offset).toNat =
          j.device.position.toNat + offset.toNat := by
        rw [BitVec.toNat_add, Nat.mod_eq_of_lt (by omega)]
      have hlength : min capacity n.toNat = min n.toNat (capacity - offset.toNat) := by omega
      refine ⟨?_, fun k hk ↦ ?_⟩
      · rw [← hlength, hstart]
        refine prefixOf_congr fun k hk ↦ congrArg log ?_
        rw [Nat.mod_eq_of_lt (by omega), Nat.add_assoc]
      · dsimp only at *
        omega
    · have hzero : (0 : U64).toNat = 0 := rfl
      rw [hzero, Nat.min_zero, Nat.zero_min]
      exact ⟨rfl, inside_nil⟩

/-- One that is. -/
theorem serves_split (h : j.Ok) (hlog : j.device.logBuffer = some log)
    (hfull : j.device.size = maxSize)
    (hsum : ¬ j.device.position + offset + kmin maxSize n < maxSize) :
    j.Serves (.read offset n dst) ↔ j.device.ReadFitsFull offset n := by
  have hcapacity := capacity_eq
  have hasked := toNat_asked n
  have hposition := h.position_le
  have hnot : ¬ j.device.size < maxSize := hfull ▸ BitVec.lt_irrefl _
  have hmore := hsum
  rw [BitVec.lt_def, toNat_maxSize, BitVec.toNat_add, BitVec.toNat_add, hasked] at hmore
  rw [Journal.Serves, h.recent_full hlog hfull, drop_prefixOf, take_prefixOf,
    read_split hlog hnot hsum rfl]
  generalize hremaining : maxSize - j.device.position + offset + kmin maxSize n = remaining
  constructor
  · rintro ⟨hbytes, hinside⟩
    have hfirst : Inside n.toNat ⟨(j.device.position + offset).toNat, 0, remaining.toNat⟩ := by
      refine hinside _ ?_
      rw [ReadResult.copy_copies, ReadResult.copy_copies]
      exact List.mem_append_left _ (List.mem_append_right _ (List.mem_singleton_self _))
    have hlength := congrArg List.length hbytes
    simp only [ReadResult.copy, length_prefixOf, hasked] at hlength
    obtain hzero | hpos := Nat.eq_zero_or_pos n.toNat
    · have hn : n = 0 := BitVec.toNat_eq.mpr hzero
      have hnone : remaining.toNat = 0 := by
        by_contra hne
        have hlt := (hfirst 0 (Nat.pos_of_ne_zero hne)).2
        rw [hzero] at hlt
        exact Nat.not_lt_zero _ hlt
      rw [hn, add_kmin_zero] at hremaining
      exact .inr ⟨hn, .inr (hremaining.trans (BitVec.toNat_eq.mpr hnone))⟩
    · have hle := le_of_length rfl hlength hpos
      have hstart : (j.device.position + offset).toNat =
          j.device.position.toNat + offset.toNat := by
        rw [BitVec.toNat_add, Nat.mod_eq_of_lt (by omega)]
      have htoNat : remaining.toNat =
          capacity - j.device.position.toNat + offset.toNat + min capacity n.toNat := by
        rw [← hremaining, BitVec.toNat_add, BitVec.toNat_add, hasked, BitVec.toNat_sub_of_le
          (BitVec.le_def.mpr (hposition.trans_eq toNat_maxSize.symm)), toNat_maxSize,
          Nat.mod_add_mod, Nat.mod_eq_of_lt (by omega)]
      have hlast := (hfirst (remaining.toNat - 1) (by dsimp only; omega)).1
      dsimp only at hlast
      omega
  · rintro (hle | ⟨rfl, hlt | hzero⟩)
    · rw [Nat.mod_add_mod, Nat.mod_eq_of_lt (by omega)] at hmore
      exact absurd hle hmore
    · rw [add_kmin_zero] at hsum
      exact absurd hlt hsum
    · rw [add_kmin_zero, hzero] at hremaining
      subst hremaining
      refine ⟨?_, fun c hc ↦ ?_⟩
      · have hnone : (0 : U64).toNat = 0 := rfl
        simp only [ReadResult.copy, kmin_zero, hnone, Nat.zero_min, prefixOf_zero]
      · have hlen : (kmin maxSize 0 - 0).toNat = 0 := rfl
        rw [ReadResult.copy_copies, ReadResult.copy_copies, hlen] at hc
        obtain rfl | rfl : c = ⟨(j.device.position + offset).toNat, 0, 0⟩ ∨ c = ⟨0, 0, 0⟩ := by
          simpa using hc
        · exact inside_nil
        · exact inside_nil

/-- **The reads that return what they should** are those that fit. -/
theorem serves_read (h : j.Ok) :
    j.Serves (.read offset n dst) ↔ j.device.Fits (.read offset n dst) := by
  rw [Fits]
  cases hlog : j.device.logBuffer with
  | none =>
    refine iff_of_true ?_ (.inl rfl)
    rw [Journal.Serves, read_none hlog, h.empty hlog]
    exact ⟨by simp [recent], List.forall_mem_nil _⟩
  | some log =>
    by_cases hfull : j.device.size = maxSize
    · have hrest : (some log = none ∨ j.device.size ≠ maxSize ∧ j.device.ReadFitsFilling offset n ∨
          j.device.size = maxSize ∧ j.device.ReadFitsFull offset n) ↔
            j.device.ReadFitsFull offset n := by
        simp [hfull]
      rw [hrest]
      by_cases hsum : j.device.position + offset + kmin maxSize n < maxSize
      · exact serves_straight h hlog hfull hsum
      · exact serves_split h hlog hfull hsum
    · rw [serves_filling h hlog hfull]
      simp [hfull]

/-! ## Runs -/

/-- **The calls that do what they should** are those that fit. -/
theorem serves_iff (h : j.Ok) (call : Call) : j.Serves call ↔ j.device.Fits call := by
  cases call with
  | enable block => exact Iff.rfl
  | disable => exact Iff.rfl
  | write offset n b => exact serves_write h
  | read offset n dst => exact serves_read h

theorem Journal.ok_new : Journal.Ok ⟨new, []⟩ :=
  ⟨(Nat.min_zero _).symm, Nat.zero_le _, fun _ ↦ rfl, fun h ↦ absurd h (by decide),
    fun h ↦ absurd h (by decide), fun _ ↦ rfl, fun _ h ↦ absurd h (by simp [new])⟩

theorem enable_of_some (h : d.logBuffer = some log) (block : ℕ → Byte) :
    d.enable block = { d with enabled := true } := by
  rw [enable, h]

theorem enable_of_none (h : d.logBuffer = none) (block : ℕ → Byte) :
    d.enable block =
      { d with
        logBuffer := some (Function.update (Function.update block 0 0) 1 1)
        enabled := true } := by
  rw [enable, h]

theorem Journal.Ok.enable (h : j.Ok) (block : ℕ → Byte) :
    Journal.Ok { j with device := j.device.enable block } := by
  cases hlog : j.device.logBuffer with
  | some log =>
    have hne : j.device.logBuffer ≠ none := by simp [hlog]
    rw [enable_of_some hlog]
    exact ⟨h.size, h.position_le, h.filling, h.full, fun _ ↦ hne, h.empty, h.records⟩
  | none =>
    have hempty := h.empty hlog
    rw [enable_of_none hlog]
    refine ⟨h.size, h.position_le, h.filling, h.full, fun _ ↦ by simp,
      fun hnone ↦ by simp at hnone, ?_⟩
    rintro log -
    rw [hempty]
    exact records_nil _ _

/-- A call that fits keeps the end of the history in the ring. -/
theorem Journal.Ok.step (h : j.Ok) (hfits : j.device.Fits call) (hs : j.step call = some j') :
    j'.Ok := by
  cases call with
  | enable block =>
    obtain rfl := Option.some.inj hs
    exact h.enable block
  | disable =>
    obtain rfl := Option.some.inj hs
    exact ⟨h.size, h.position_le, h.filling, h.full, fun hyes ↦
      absurd hyes (by simp [disable]), h.empty,
      h.records⟩
  | write offset n b => exact h.write hfits hs
  | read offset n dst =>
    obtain rfl := Option.some.inj hs
    exact h

theorem Journal.ok_of_reaches (h : journalMachine.Reaches (fun j call ↦ j.device.Fits call) j) :
    j.Ok := by
  refine h.invariant (fun j hinit ↦ ?_) fun j call j' ih hP hs ↦ ih.step hP hs
  obtain ⟨device, history⟩ := j
  obtain ⟨rfl, rfl⟩ : device = new ∧ history = [] := hinit
  exact ok_new

/-- **As long as the calls fit, the log is the end of what has been written**: then a call stays
inside the ring and the caller's bytes, and a read returns what it should, just if it fits. -/
theorem Journal.serves_of_fits (h : journalMachine.Reaches (fun j call ↦ j.device.Fits call) j)
    (call : Call) : j.Serves call ↔ j.device.Fits call :=
  serves_iff (Journal.ok_of_reaches h) call

/-- An enabled log. -/
def Journal.enabled : Journal := ⟨new.enable fun _ ↦ 0, []⟩

/-- `"ok"`. -/
def okBytes (i : ℕ) : Byte := if i = 0 then 0x6F else 0x6B

/-- The log with it. -/
def Journal.written : Journal where
  device := (Journal.enabled.device.write 0 2 okBytes).device
  history := [0x6F, 0x6B]

theorem Journal.reaches_written : journalMachine.Reaches (fun j call ↦ j.device.Fits call)
    Journal.written := by
  have hcapacity := capacity_eq
  have hfits : Journal.enabled.device.Fits (.write 0 2 okBytes) :=
    .inr (.inr (.inr ⟨by decide, show 0 + min 2 capacity ≤ capacity by omega⟩))
  have henable : Fits new (.enable fun _ ↦ 0) := trivial
  have hnew : journalMachine.Reaches (fun j call ↦ j.device.Fits call) ⟨new, []⟩ :=
    .initial ⟨rfl, rfl⟩
  have hstep : journalMachine.step ⟨new, []⟩ (.enable fun _ ↦ 0) = some Journal.enabled := rfl
  have hstep' : journalMachine.step Journal.enabled (.write 0 2 okBytes) =
    some Journal.written := rfl
  exact (hnew.step henable hstep).step hfits hstep'

/-- It is read as it has been written. -/
theorem Journal.serves_written : Journal.written.Serves (.read 0 16 okBytes) :=
  (Journal.serves_of_fits Journal.reaches_written _).mpr (.inr (.inl ⟨by decide, .inl rfl⟩))

/-- A read of its second byte only is given two bytes, the last of which is no part of it. -/
theorem Journal.not_serves_second : journalMachine.Reaches (fun _ _ ↦ True) Journal.written ∧
    ¬ Journal.written.Serves (.read 1 1 okBytes) := by
  refine ⟨Journal.reaches_written.mono fun _ _ _ ↦ trivial, ?_⟩
  rw [serves_iff (Journal.ok_of_reaches Journal.reaches_written)]
  rintro (hnone | ⟨-, hzero | hzero | ⟨hle, -⟩⟩ | ⟨hfull, -⟩)
  · exact absurd hnone (Option.some_ne_none _)
  · exact absurd hzero (by decide)
  · exact absurd hzero (by decide)
  · exact absurd hle (by decide)
  · exact absurd hfull (by decide)

end LogDevice

end Borrrdex
