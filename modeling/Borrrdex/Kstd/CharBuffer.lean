import Borrrdex.Basic
import Borrrdex.Lib.CounterLoop
import Borrrdex.Lib.Prefixes

/-!
# The buffer behind a terminal

A `char_buffer` is a heap block whose first `_position` bytes are waiting to be read; `_lines`
counts the terminators among them.  `write` puts characters behind the others and lets a backspace
take the last one back, unless it is told to ignore them; `read` takes bytes from the front and
moves the rest of the block down.

An `Editor` is what a buffer is for: the bytes in it, as a list.  `write_edits` and `read_takes` say
what the two functions do to it, and where they access the block.

`_size` and `_max_size` keep their initial values.  `realloc` leaves the bytes of the block as they
are and succeeds.  The lock is not modelled: a call is one step.
-/

set_option autoImplicit false

namespace Borrrdex

/-- `'\b'`. -/
def backspace : Byte := 0x08

/-- `'\n'`. -/
def newline : Byte := 0x0A

/-- `'\0'`. -/
def nul : Byte := 0

/-- `char_buffer`.  `allocated` is the size of the block at `_buffer`, which the source does not
keep. -/
structure CharBuffer where
  position : U64
  lines : ℤ
  ignoreBs : Bool
  buffer : ℕ → Byte
  allocated : ℕ

/-- The characters that `_lines` counts. -/
def terminator (ch : Byte) : Bool := ch = nul ∨ ch = newline

namespace CharBuffer

/-- `_size`, which is `START_SIZE`. -/
def size : U64 := 1024

/-- `_max_size`. -/
def maxSize : U64 := 0x200000

def hasLines (c : CharBuffer) : Bool := 0 < c.lines

def hasData (c : CharBuffer) : Bool := 0 < c.position

/-- A write on its way: what it has counted, how many bytes of the caller's it has read, and which
bytes of the block it has accessed. -/
structure WriteState where
  buffer : CharBuffer
  written : ℕ
  taken : ℕ
  accesses : List ℕ

/-- The body of the loop of `write`. -/
def WriteState.put (ch : Byte) (s : WriteState) : WriteState :=
  let c := s.buffer
  if ch = backspace ∧ c.ignoreBs = false then
    if 0 < c.position then
      { s with
        buffer := { c with position := c.position - 1 }
        written := s.written + 1
        taken := s.taken + 1 }
    else { s with taken := s.taken + 1 }
  else
    { buffer :=
        { c with
          buffer := Function.update c.buffer c.position.toNat ch
          position := c.position + 1
          lines := if ch = nul ∨ ch = newline then c.lines + 1 else c.lines }
      written := s.written + 1
      taken := s.taken + 1
      accesses := s.accesses ++ [c.position.toNat] }

/-- How many bytes `write` is going to take. -/
def clamp (c : CharBuffer) (n : U64) : U64 :=
  if c.position + size > maxSize then maxSize - c.position else n

/-- The block, when `n` bytes have to fit. -/
def grow (c : CharBuffer) (n : U64) : CharBuffer :=
  if c.position + n > size then { c with allocated := (c.position + size + 128).toNat } else c

/-- `char_buffer::write(b, n)`.  There is no result if it does not return. -/
def write (b : ℕ → Byte) (n : U64) (c : CharBuffer) : Option WriteState :=
  let n := c.clamp n
  if n = 0 then some ⟨c, 0, 0, []⟩
  else
    (forBelow n.toNat (fun (i : U32) s ↦ .inr (s.put (b i.toNat))) 0 ⟨c.grow n, 0, 0, []⟩).map
      Prod.snd

/-- A read on its way: the caller's buffer, and which bytes of the block have been accessed. -/
structure ReadState where
  buffer : CharBuffer
  dst : ℕ → Byte
  accesses : List ℕ

/-- The body of the first loop of `read`.  Nulls are left out. -/
def ReadState.get (i : ℕ) (s : ReadState) : ReadState :=
  let c := s.buffer
  let ch := c.buffer i
  if ch = nul then
    { s with buffer := { c with lines := c.lines - 1 }, accesses := s.accesses ++ [i] }
  else
    { buffer := { c with lines := if ch = newline then c.lines - 1 else c.lines }
      dst := Function.update s.dst i ch
      accesses := s.accesses ++ [i] }

/-- The body of the second one. -/
def ReadState.shift (n i : ℕ) (s : ReadState) : ReadState :=
  { s with
    buffer := { s.buffer with
      buffer := Function.update s.buffer.buffer i (s.buffer.buffer (n + i)) }
    accesses := s.accesses ++ [n + i, i] }

/-- How many bytes `read` is going to take. -/
def available (c : CharBuffer) (n : U64) : U64 := if n > c.position then c.position else n

/-- `char_buffer::read(b, n)`, with what it returns. -/
def read (dst : ℕ → Byte) (n : U64) (c : CharBuffer) : Option (U64 × ReadState) :=
  let n := c.available n
  if n = 0 then some (0, ⟨c, dst, []⟩)
  else do
    let (_, s) ← forBelow n.toNat (fun (i : U32) (s : ReadState) ↦ .inr (s.get i.toNat)) 0
      ⟨c, dst, []⟩
    let (_, s) ← forBelow (size - n).toNat
      (fun (i : U32) (s : ReadState) ↦ .inr (s.shift n.toNat i.toNat)) 0 s
    return (n, { s with buffer := { s.buffer with position := s.buffer.position - n } })

/-- `char_buffer::flush()`. -/
def flush (c : CharBuffer) : CharBuffer := { c with position := 0, lines := 0 }

/-- The bytes that wait. -/
def contents (c : CharBuffer) : List Byte := prefixOf c.buffer c.position.toNat

end CharBuffer

/-! ## The editor -/

/-- What a buffer is for. -/
structure Editor where
  line : List Byte
  lines : ℤ
  written : ℕ

namespace Editor

/-- One character. -/
def put (ignoreBs : Bool) (e : Editor) (ch : Byte) : Editor :=
  if ch = backspace ∧ ignoreBs = false then
    if e.line = [] then e else { e with line := e.line.dropLast, written := e.written + 1 }
  else
    { line := e.line ++ [ch]
      lines := if terminator ch then e.lines + 1 else e.lines
      written := e.written + 1 }

theorem length_put_le (ignoreBs : Bool) (e : Editor) (ch : Byte) :
    (e.put ignoreBs ch).line.length ≤ e.line.length + 1 := by
  rw [put]
  split
  · split <;> simp
    omega
  · simp

end Editor

namespace CharBuffer

/-- The editor of a write on its way. -/
def WriteState.editor (s : WriteState) : Editor := ⟨s.buffer.contents, s.buffer.lines, s.written⟩

variable {c : CharBuffer} {s : WriteState} {ch : Byte} {b : ℕ → Byte} {n : U64}

@[simp] theorem length_contents (c : CharBuffer) : c.contents.length = c.position.toNat :=
  length_prefixOf _ _

theorem contents_eq_nil : c.contents = [] ↔ ¬ 0 < c.position := by
  rw [← List.length_eq_zero_iff, length_contents, BitVec.lt_def]
  simp

/-! ## Writing -/

theorem contents_push (h : c.position.toNat + 1 < 2 ^ 64) (lines : ℤ) :
    ({ c with
      buffer := Function.update c.buffer c.position.toNat ch
      position := c.position + 1
      lines := lines } : CharBuffer).contents = c.contents ++ [ch] := by
  have hsucc : (c.position + 1).toNat = c.position.toNat + 1 := by
    rw [BitVec.toNat_add]
    exact Nat.mod_eq_of_lt (by simpa using h)
  rw [contents, hsucc, prefixOf_update, contents]

theorem contents_pop (h : 0 < c.position) :
    ({ c with position := c.position - 1 } : CharBuffer).contents = c.contents.dropLast := by
  have hpred : (c.position - 1).toNat + 1 = c.position.toNat := by
    have hpos := BitVec.lt_def.mp h
    bv_omega
  rw [contents, contents, ← hpred, prefixOf_succ, List.dropLast_concat]

/-- A character of a write is one of its editor. -/
theorem WriteState.editor_put (s : WriteState) (ch : Byte)
    (h : s.buffer.position.toNat + 1 < 2 ^ 64) :
    (s.put ch).editor = s.editor.put s.buffer.ignoreBs ch := by
  rw [put, Editor.put]
  split
  · have hnil : s.editor.line = [] ↔ ¬ 0 < s.buffer.position := contents_eq_nil
    by_cases hpos : 0 < s.buffer.position
    · rw [if_pos hpos, if_neg (hnil.not.mpr (not_not.mpr hpos)), editor, contents_pop hpos]
      rfl
    · rw [if_neg hpos, if_pos (hnil.mpr hpos)]
      rfl
  · simp only [editor, contents_push h, terminator, decide_eq_true_eq]

/-- What else it does. -/
theorem WriteState.put_same (ch : Byte) (s : WriteState) :
    (s.put ch).buffer.ignoreBs = s.buffer.ignoreBs ∧
      (s.put ch).buffer.allocated = s.buffer.allocated ∧ (s.put ch).taken = s.taken + 1 ∧
      ∀ a ∈ (s.put ch).accesses, a ∈ s.accesses ∨ a = s.buffer.position.toNat := by
  rw [put]
  split
  · split
    · exact ⟨rfl, rfl, rfl, fun a ha ↦ .inl ha⟩
    · exact ⟨rfl, rfl, rfl, fun a ha ↦ .inl ha⟩
  · exact ⟨rfl, rfl, rfl, fun a ha ↦ by simpa using ha⟩

theorem WriteState.put_ignoring (ch : Byte) (s : WriteState) (h : s.buffer.ignoreBs = true) :
    (s.put ch).buffer.position = s.buffer.position + 1 ∧
      (s.put ch).accesses = s.accesses ++ [s.buffer.position.toNat] := by
  simp [put, h]

/-- `write` has put its characters through the editor. -/
structure Edited (c : CharBuffer) (b : ℕ → Byte) (n : U64) (s : WriteState) : Prop where
  editor : s.editor = (prefixOf b n.toNat).foldl (Editor.put c.ignoreBs) ⟨c.contents, c.lines, 0⟩
  taken : s.taken = n.toNat
  position_le : s.buffer.position.toNat ≤ c.position.toNat + n.toNat
  ignoreBs : s.buffer.ignoreBs = c.ignoreBs
  allocated : s.buffer.allocated = if n = 0 then c.allocated else (c.grow n).allocated
  accesses : ∀ a ∈ s.accesses, a < c.position.toNat + n.toNat
  ignoring : c.ignoreBs = true → s.accesses = (List.range n.toNat).map (c.position.toNat + ·)

theorem toNat_maxSize : maxSize.toNat = 2 ^ 21 := rfl

theorem toNat_size : size.toNat = 1024 := rfl

/-- How many bytes a buffer has room for. -/
@[irreducible] def capacity : ℕ := 0x200000

theorem capacity_eq : capacity = 2 ^ 21 := by
  rw [capacity]
  rfl

theorem maxSize_eq_capacity : maxSize.toNat = capacity := capacity_eq.symm

theorem clamp_of_le (h : c.position.toNat + 1024 ≤ maxSize.toNat) : c.clamp n = n := by
  have hmax := toNat_maxSize
  have hsize := toNat_size
  rw [clamp, if_neg (by bv_omega)]

theorem toNat_clamp_of_lt (hpos : c.position.toNat ≤ maxSize.toNat)
    (h : maxSize.toNat < c.position.toNat + 1024) :
    (c.clamp n).toNat = maxSize.toNat - c.position.toNat := by
  have hmax := toNat_maxSize
  have hsize := toNat_size
  rw [clamp, if_pos (by bv_omega)]
  bv_omega

theorem grow_same (c : CharBuffer) (n : U64) :
    (c.grow n).contents = c.contents ∧ (c.grow n).lines = c.lines ∧
      (c.grow n).ignoreBs = c.ignoreBs ∧ (c.grow n).position = c.position := by
  have hsame (a : ℕ) : ({ c with allocated := a } : CharBuffer).contents = c.contents := rfl
  rw [grow]
  split
  · exact ⟨hsame _, rfl, rfl, rfl⟩
  · exact ⟨rfl, rfl, rfl, rfl⟩

/-- **What `write` does.** -/
theorem write_edits (b : ℕ → Byte) (n : U64) (hn : (c.clamp n).toNat < 2 ^ 32)
    (hpos : c.position.toNat + (c.clamp n).toNat < 2 ^ 64) :
    ∃ s, c.write b n = some s ∧ Edited c b (c.clamp n) s := by
  rw [write]
  generalize c.clamp n = m at *
  obtain ⟨hcontents, hlines, hignore, hposition⟩ := c.grow_same m
  by_cases hzero : m = 0
  · subst hzero
    rw [if_pos rfl]
    refine ⟨⟨c, 0, 0, []⟩, rfl, ?_⟩
    constructor <;> simp [WriteState.editor]
  · let Inv (i : ℕ) (s : WriteState) : Prop :=
      s.editor = (prefixOf b i).foldl (Editor.put c.ignoreBs) ⟨c.contents, c.lines, 0⟩ ∧
        s.taken = i ∧ s.buffer.ignoreBs = c.ignoreBs ∧
        s.buffer.allocated = (c.grow m).allocated ∧ s.buffer.position.toNat ≤ c.position.toNat + i ∧
        (∀ a ∈ s.accesses, a < c.position.toNat + i) ∧
        (c.ignoreBs = true → s.buffer.position.toNat = c.position.toNat + i ∧
          s.accesses = (List.range i).map (c.position.toNat + ·))
    obtain ⟨j, s, hloop, heditor, htaken, hbs, halloc, hle, haccess, hignoring⟩ :=
      forBelow_go (w := 32)
      (s := ⟨c.grow m, 0, 0, []⟩) hn (fun i s ↦ s.put (b i)) Inv
      ⟨by simp [WriteState.editor, hcontents, hlines], rfl, hignore, rfl, by simp [hposition],
        List.forall_mem_nil _, fun _ ↦ ⟨by simp [hposition], by simp⟩⟩
      (fun i s hi hs ↦ by
        obtain ⟨heditor, htaken, hbs, halloc, hle, haccess, hignoring⟩ := hs
        obtain ⟨hbs', halloc', htaken', haccess'⟩ := s.put_same (b i)
        have hput := s.editor_put (b i) (by omega)
        have hlength := Editor.length_put_le s.buffer.ignoreBs s.editor (b i)
        refine ⟨?_, by omega, hbs'.trans hbs, halloc'.trans halloc, ?_, fun a ha ↦ ?_,
          fun hc ↦ ?_⟩
        · rw [hput, hbs, heditor, prefixOf_succ, List.foldl_append]
          rfl
        · rw [← hput] at hlength
          simp only [WriteState.editor, length_contents] at hlength
          omega
        · obtain hold | rfl := haccess' a ha
          · have := haccess a hold
            omega
          · omega
        · obtain ⟨hpos', haccesses⟩ := s.put_ignoring (b i) (hbs.trans hc)
          obtain ⟨hposition', hall⟩ := hignoring hc
          refine ⟨by rw [hpos']; bv_omega, ?_⟩
          rw [haccesses, hall, hposition', List.range_succ, List.map_append, List.map_singleton])
    rw [if_neg hzero]
    refine ⟨s, ?_, heditor, htaken, hle, hbs, ?_, haccess, fun hc ↦ (hignoring hc).2⟩
    · rw [hloop]
      rfl
    · rw [halloc, if_neg hzero]

/-- More bytes than an `unsigned` counts keep `write` in its loop. -/
theorem write_eq_none (b : ℕ → Byte) (n : U64) (h : 2 ^ 32 ≤ (c.clamp n).toNat) :
    c.write b n = none := by
  have hne : c.clamp n ≠ 0 := fun hzero ↦ by
    rw [hzero] at h
    exact absurd h (by decide)
  rw [write]
  simp only [if_neg hne]
  rw [forBelow_eq_none h (fun _ ↦ True) trivial fun i s _ ↦ ⟨_, rfl, trivial⟩]
  rfl

/-- Nothing is counted that has not been taken. -/
theorem written_le_taken (h : c.write b n = some s) : s.written ≤ s.taken := by
  by_cases hbig : 2 ^ 32 ≤ (c.clamp n).toNat
  · rw [write_eq_none b n hbig] at h
    cases h
  by_cases hzero : c.clamp n = 0
  · rw [write, if_pos hzero, Option.some.injEq] at h
    rw [← h]
  · let start : WriteState := ⟨c.grow (c.clamp n), 0, 0, []⟩
    obtain ⟨j, s', hloop, hle⟩ := forBelow_go (w := 32) (s := start)
      (not_le.mp hbig) (fun i s ↦ s.put (b i)) (fun _ s ↦ s.written ≤ s.taken) le_rfl
      (fun i s _ hs ↦ by
        rw [WriteState.put]
        split
        · split
          · exact Nat.succ_le_succ hs
          · exact hs.trans (Nat.le_succ _)
        · exact Nat.succ_le_succ hs)
    rw [write] at h
    simp only [if_neg hzero] at h
    rw [hloop, Option.map_some, Option.some.injEq] at h
    exact h ▸ hle

/-! ## Reading -/

/-- How many terminators there are among the first bytes. -/
def terminators (c : CharBuffer) (n : ℕ) : ℕ := (prefixOf c.buffer n).countP terminator

theorem terminators_succ (c : CharBuffer) (n : ℕ) :
    c.terminators (n + 1) = c.terminators n + if terminator (c.buffer n) then 1 else 0 := by
  rw [terminators, prefixOf_succ, List.countP_append]
  simp [terminators, List.countP_cons]

/-- The body of the first loop, with the bytes of the block where it finds them. -/
theorem ReadState.get_spec (i : ℕ) (s : ReadState) :
    s.get i =
      { buffer := { s.buffer with
          lines := s.buffer.lines - if terminator (s.buffer.buffer i) then 1 else 0 }
        dst :=
          if s.buffer.buffer i = nul then s.dst else Function.update s.dst i (s.buffer.buffer i)
        accesses := s.accesses ++ [i] } := by
  rw [get]
  by_cases hzero : s.buffer.buffer i = nul
  · simp [hzero, terminator]
  · by_cases hline : s.buffer.buffer i = newline
    · have hne : newline ≠ nul := hline ▸ hzero
      simp [hline, hne, terminator]
    · simp [hzero, hline, terminator]

theorem getLoop_takes (dst : ℕ → Byte) (hn : n.toNat ≤ 1024) : ∃ (j : U32) (s : ReadState),
    forBelow n.toNat (fun (i : U32) (s : ReadState) ↦ .inr (s.get i.toNat)) 0 ⟨c, dst, []⟩ =
      some (j, s) ∧
    s.buffer = { c with lines := c.lines - c.terminators n.toNat } ∧
    (∀ i < n.toNat, s.dst i = if c.buffer i = nul then dst i else c.buffer i) ∧
    ∀ a ∈ s.accesses, a < n.toNat := by
  let Inv (i : ℕ) (s : ReadState) : Prop :=
    s.buffer = { c with lines := c.lines - c.terminators i } ∧
      (∀ k, s.dst k = if k < i ∧ c.buffer k ≠ nul then c.buffer k else dst k) ∧
      ∀ a ∈ s.accesses, a < i
  obtain ⟨j, s, hloop, hbuffer, hdst, haccess⟩ := forBelow_go (w := 32) (n := n.toNat)
    (s := ⟨c, dst, []⟩) (by omega) ReadState.get Inv
    ⟨by simp [terminators], by simp, List.forall_mem_nil _⟩
    (fun i s hi hs ↦ by
      obtain ⟨hbuffer, hdst, haccess⟩ := hs
      refine ⟨?_, fun k ↦ ?_, fun a ha ↦ ?_⟩
      · rw [ReadState.get_spec, hbuffer, terminators_succ]
        split <;> simp
        omega
      · rw [ReadState.get_spec, hbuffer]
        obtain rfl | hne := eq_or_ne k i
        · by_cases hzero : c.buffer k = nul <;> simp [hzero, hdst]
        · have hlt : k < i + 1 ↔ k < i := by omega
          by_cases hzero : c.buffer i = nul
          · simp [hzero, hdst, hlt]
          · simp [hzero, hdst, hlt, hne]
      · rw [ReadState.get_spec, List.mem_append, List.mem_singleton] at ha
        obtain hold | rfl := ha
        · exact (haccess a hold).trans (Nat.lt_succ_self _)
        · exact Nat.lt_succ_self _)
  refine ⟨j, s, hloop, hbuffer, fun i hi ↦ ?_, haccess⟩
  rw [hdst i]
  by_cases hzero : c.buffer i = nul <;> simp [hzero, hi]

theorem shiftLoop_takes (s : ReadState) (n m : ℕ) (hm : m < 2 ^ 32) (h : n + m = 1024) :
    ∃ (j : U32) (s' : ReadState),
    forBelow m (fun (i : U32) (s : ReadState) ↦ .inr (s.shift n i.toNat)) 0 s = some (j, s') ∧
    s'.buffer = { s.buffer with
      buffer := fun i ↦ if i < m then s.buffer.buffer (n + i) else s.buffer.buffer i } ∧
    s'.dst = s.dst ∧ ∀ a ∈ s'.accesses, a ∈ s.accesses ∨ a < 1024 := by
  let Inv (i : ℕ) (t : ReadState) : Prop :=
    t.buffer = { s.buffer with
        buffer := fun k ↦ if k < i then s.buffer.buffer (n + k) else s.buffer.buffer k } ∧
      t.dst = s.dst ∧ ∀ a ∈ t.accesses, a ∈ s.accesses ∨ a < 1024
  exact forBelow_go hm (ReadState.shift n) Inv ⟨by simp, rfl, fun a ha ↦ .inl ha⟩
    (fun i t hi ht ↦ by
      obtain ⟨hbuffer, hdst, haccess⟩ := ht
      refine ⟨?_, hdst, fun a ha ↦ ?_⟩
      · simp only [ReadState.shift, hbuffer]
        congr 1
        funext k
        obtain rfl | hne := eq_or_ne k i
        · simp
        · have hlt : k < i + 1 ↔ k < i := by omega
          simp [hne, hlt]
      · simp only [ReadState.shift, List.mem_append, List.mem_cons, List.not_mem_nil,
          or_false] at ha
        obtain hold | rfl | rfl := ha
        · exact haccess a hold
        · exact .inr (by omega)
        · exact .inr (by omega))

/-- `read` has taken the first `n` bytes. -/
structure Taken (c : CharBuffer) (dst : ℕ → Byte) (n : U64) (s : ReadState) : Prop where
  position : s.buffer.position = c.position - n
  lines : s.buffer.lines = c.lines - c.terminators n.toNat
  ignoreBs : s.buffer.ignoreBs = c.ignoreBs
  allocated : s.buffer.allocated = c.allocated
  dst : ∀ i < n.toNat, s.dst i = if c.buffer i = nul then dst i else c.buffer i
  shifted : ∀ i < 1024 - n.toNat, n ≠ 0 → s.buffer.buffer i = c.buffer (n.toNat + i)
  kept : n = 0 → s.buffer.buffer = c.buffer
  accesses : ∀ a ∈ s.accesses, a < 1024

/-- **What `read` does**, when it does not take more than the initial block holds. -/
theorem read_takes (dst : ℕ → Byte) (n : U64) (hn : (c.available n).toNat ≤ 1024) :
    ∃ s, c.read dst n = some (c.available n, s) ∧ Taken c dst (c.available n) s := by
  rw [read]
  generalize c.available n = m at *
  by_cases hzero : m = 0
  · subst hzero
    rw [if_pos rfl]
    refine ⟨⟨c, dst, []⟩, rfl, ?_⟩
    constructor <;> simp [terminators]
  · have hrest : (size - m).toNat = 1024 - m.toNat := by
      rw [size]
      bv_omega
    obtain ⟨j, s, hget, hbuffer, hdst, haccess⟩ := getLoop_takes (c := c) dst hn
    obtain ⟨k, t, hshift, hbuffer', hdst', haccess'⟩ :=
      shiftLoop_takes s m.toNat (1024 - m.toNat) (by omega) (by omega)
    simp only [if_neg hzero, hget, Option.bind_eq_bind, Option.bind_some, hrest, hshift]
    refine ⟨_, rfl, ?_, ?_, ?_, ?_, fun i hi ↦ ?_, fun i hi _ ↦ ?_, fun h ↦ absurd h hzero,
      fun a ha ↦ ?_⟩
    · simp [hbuffer', hbuffer]
    · simp [hbuffer', hbuffer]
    · simp [hbuffer', hbuffer]
    · simp [hbuffer', hbuffer]
    · rw [hdst', hdst i hi]
    · simp [hbuffer', hbuffer, hi]
    · obtain hold | hlt := haccess' a ha
      · exact (haccess a hold).trans_le hn
      · exact hlt

/-- The bytes that are left. -/
theorem Taken.contents {dst : ℕ → Byte} {s : ReadState} (h : Taken c dst n s)
    (hle : n ≤ c.position) (hpos : n = 0 ∨ c.position.toNat ≤ 1024) :
    s.buffer.contents = c.contents.drop n.toNat := by
  have hrest : s.buffer.position.toNat = c.position.toNat - n.toNat := by
    rw [h.position, BitVec.toNat_sub_of_le hle]
  refine List.ext_getElem (by simp [hrest]) fun i hi _ ↦ ?_
  rw [length_contents, hrest] at hi
  simp only [CharBuffer.contents, prefixOf, List.getElem_map, List.getElem_range, List.getElem_drop]
  by_cases hzero : n = 0
  · rw [h.kept hzero, hzero]
    simp
  · have hle' := hpos.resolve_left hzero
    exact h.shifted i (by omega) hzero

theorem available_le (c : CharBuffer) (n : U64) : c.available n ≤ c.position := by
  rw [available]
  split
  · exact BitVec.le_refl _
  · exact BitVec.not_lt.mp ‹_›

theorem toNat_available (c : CharBuffer) (n : U64) :
    (c.available n).toNat = min n.toNat c.position.toNat := by
  rw [available]
  split
  · next h => exact (min_eq_right (BitVec.lt_def.mp h).le).symm
  · next h => exact (min_eq_left (not_lt.mp fun h' ↦ h (BitVec.lt_def.mpr h'))).symm

end CharBuffer

end Borrrdex
