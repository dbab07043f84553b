import Borrrdex.Kstd.CharBuffer
import Borrrdex.Lib.BoundedQueue
import Borrrdex.Lib.Runs

/-!
# A terminal's buffer as a queue

With backspaces ignored, a `char_buffer` is meant to be a queue of at most `_max_size` bytes.  What
it holds beyond the first 1024 it does not handle like one:

* `write` compares the size with the 1024 bytes a block starts with, and then makes the block 1152
bytes larger than what is in it, whatever the size;
* within 1024 bytes of the maximum it takes all the bytes that there is room for, even if the caller
has fewer;
* `read` moves the first 1024 bytes of the block down, and no others.

`Fits` are the calls at which none of this matters, and `Traffic.Refines.step` says that one of them
is the move of a `BoundedQueue`.
-/

set_option autoImplicit false

namespace Borrrdex

namespace CharBuffer

/-- What is done to a buffer. -/
inductive Call where
  | write (b : ℕ → Byte) (n : U64)
  | read (b : ℕ → Byte) (n : U64)

/-- A buffer, with the bytes that its calls have accepted and returned. -/
structure Traffic where
  buffer : CharBuffer
  accepted : List Byte
  returned : List Byte

def Traffic.step (t : Traffic) : Call → Option Traffic
  | .write b n => (t.buffer.write b n).map fun s ↦
      { t with buffer := s.buffer, accepted := t.accepted ++ prefixOf b s.written }
  | .read b n => (t.buffer.read b n).map fun (m, s) ↦
      { t with buffer := s.buffer, returned := t.returned ++ prefixOf s.dst m.toNat }

/-- A buffer that has been flushed, and does not process backspaces. -/
def Traffic.Flushed (t : Traffic) : Prop :=
  (∃ c : CharBuffer, t.buffer = c.flush) ∧ t.buffer.ignoreBs = true ∧ 1024 ≤ t.buffer.allocated ∧
    t.accepted = [] ∧ t.returned = []

def trafficMachine : Machine Traffic Call where
  initial := Traffic.Flushed
  step := Traffic.step

theorem trafficMachine_step (t : Traffic) (call : Call) :
    trafficMachine.step t call = t.step call :=
  rfl

/-- The caller's bytes are no nulls. -/
def Call.NulFree : Call → Prop
  | .write b n => ∀ i < n.toNat, b i ≠ nul
  | .read _ _ => True

/-- A call does what one of a queue does, within the block and the caller's bytes. -/
def Serves (c : CharBuffer) : Call → Prop
  | .write b n => ∃ s, c.write b n = some s ∧
      s.written = min n.toNat (maxSize.toNat - c.position.toNat) ∧ s.taken ≤ n.toNat ∧
      ∀ a ∈ s.accesses, a < s.buffer.allocated
  | .read b n => ∃ m s, c.read b n = some (m, s) ∧ m.toNat = min n.toNat c.position.toNat ∧
      ∀ a ∈ s.accesses, a < s.buffer.allocated

/-- The calls that the code has been written for. -/
def Fits (c : CharBuffer) : Call → Prop
  | .write _ n =>
    (c.position.toNat + 1024 ≤ maxSize.toNat ∧
      n.toNat ≤ 1152 ∧ n.toNat ≤ maxSize.toNat - c.position.toNat) ∨
    (maxSize.toNat < c.position.toNat + 1024 ∧ maxSize.toNat - c.position.toNat ≤ n.toNat)
  | .read _ n => n = 0 ∨ c.position.toNat ≤ 1024

/-- With backspaces ignored, what is typed is what comes in. -/
theorem foldl_put_ignoring (chars : List Byte) (e : Editor) :
    chars.foldl (Editor.put true) e =
      ⟨e.line ++ chars, e.lines + chars.countP terminator, e.written + chars.length⟩ := by
  induction chars generalizing e with
  | nil => simp
  | cons ch chars ih =>
    rw [List.foldl_cons, ih, Editor.put]
    by_cases hch : terminator ch <;> simp [hch]
    · omega
    · omega

variable {c : CharBuffer} {n : U64} {b : ℕ → Byte}

/-- How large the block is, when so many bytes are put in it. -/
theorem grow_allocated (h : c.position.toNat ≤ maxSize.toNat) (hn : n.toNat < 2 ^ 32) :
    (c.grow n).allocated =
      if 1024 < c.position.toNat + n.toNat then c.position.toNat + 1152 else c.allocated := by
  have hmax := toNat_maxSize
  have hsize := toNat_size
  have hsum : (c.position + size + 128).toNat = c.position.toNat + 1152 := by bv_omega
  rw [grow]
  split <;> split
  · exact hsum
  · bv_omega
  · bv_omega
  · rfl

/-- What there is to know of a write, with backspaces ignored. -/
theorem write_ignoring (hbs : c.ignoreBs = true) (hpos : c.position.toNat ≤ maxSize.toNat)
    (hn : (c.clamp n).toNat < 2 ^ 32) (b : ℕ → Byte) :
    ∃ s, c.write b n = some s ∧ Edited c b (c.clamp n) s ∧ s.written = (c.clamp n).toNat ∧
      s.buffer.contents = c.contents ++ prefixOf b (c.clamp n).toNat := by
  have hmax := toNat_maxSize
  obtain ⟨s, hwrite, h⟩ := c.write_edits b n hn (by omega)
  have heditor := h.editor
  rw [hbs, foldl_put_ignoring] at heditor
  refine ⟨s, hwrite, h, ?_, congrArg Editor.line heditor⟩
  have hwritten := congrArg Editor.written heditor
  simpa [WriteState.editor] using hwritten

/-- Far from the maximum, `write` takes all bytes, and 1152 fit into the block behind the others. -/
theorem serves_write_of_le (hbs : c.ignoreBs = true) (halloc : 1024 ≤ c.allocated)
    (h : c.position.toNat + 1024 ≤ maxSize.toNat) :
    c.Serves (.write b n) ↔ n.toNat ≤ 1152 ∧ n.toNat ≤ maxSize.toNat - c.position.toNat := by
  have hmax := toNat_maxSize
  have hclamp := clamp_of_le (n := n) h
  rw [Serves]
  by_cases hbig : 2 ^ 32 ≤ n.toNat
  · have hbig' : 2 ^ 32 ≤ (c.clamp n).toNat := by rwa [hclamp]
    rw [write_eq_none b n hbig']
    refine ⟨fun hserves ↦ ?_, fun hfits ↦ absurd hfits.1 (by omega)⟩
    obtain ⟨s, hwrite, -⟩ := hserves
    cases hwrite
  obtain ⟨s, hwrite, h, hwritten, -⟩ := write_ignoring (b := b) (n := n) hbs (by omega)
    (by rw [hclamp]; omega)
  rw [hclamp] at h hwritten
  have hallocated := h.allocated
  have hgrow := grow_allocated (c := c) (n := n) (by omega) (by omega)
  refine ⟨fun hserves ↦ ?_, fun hfits ↦ ?_⟩
  · obtain ⟨s', hwrite', hwritten', -, haccesses⟩ := hserves
    obtain rfl : s = s' := by simpa [hwrite] using hwrite'
    refine ⟨not_lt.mp fun hlt ↦ ?_, by omega⟩
    have hmem : c.position.toNat + 1152 ∈ s.accesses := by
      rw [h.ignoring hbs]
      exact List.mem_map_of_mem (List.mem_range.mpr hlt)
    have hlast := haccesses _ hmem
    rw [hallocated, if_neg (by bv_omega), hgrow, if_pos (by omega)] at hlast
    omega
  · refine ⟨s, hwrite, by omega, h.taken.le, fun a ha ↦ ?_⟩
    rw [h.ignoring hbs, List.mem_map] at ha
    obtain ⟨i, hi, rfl⟩ := ha
    have hlt := List.mem_range.mp hi
    rw [hallocated, if_neg (by bv_omega), hgrow]
    split <;> omega

/-- Near the maximum, it takes what there is room for. -/
theorem serves_write_of_lt (hbs : c.ignoreBs = true) (hpos : c.position.toNat ≤ maxSize.toNat)
    (h : maxSize.toNat < c.position.toNat + 1024) :
    c.Serves (.write b n) ↔ maxSize.toNat - c.position.toNat ≤ n.toNat := by
  have hmax := toNat_maxSize
  have hclamp := toNat_clamp_of_lt (n := n) hpos h
  obtain ⟨s, hwrite, h, hwritten, -⟩ := write_ignoring (b := b) (n := n) hbs hpos (by omega)
  have hallocated := h.allocated
  have hgrow := grow_allocated (c := c) (n := c.clamp n) hpos (by omega)
  rw [Serves]
  refine ⟨fun hserves ↦ ?_, fun hfits ↦ ?_⟩
  · obtain ⟨s', hwrite', -, htaken, -⟩ := hserves
    obtain rfl : s = s' := by simpa [hwrite] using hwrite'
    rw [h.taken, hclamp] at htaken
    exact htaken
  · refine ⟨s, hwrite, by omega, by rw [h.taken]; omega, fun a ha ↦ ?_⟩
    rw [h.ignoring hbs, List.mem_map] at ha
    obtain ⟨i, hi, rfl⟩ := ha
    have hlt := List.mem_range.mp hi
    rw [hallocated, if_neg (by bv_omega), hgrow, if_pos (by omega)]
    omega

/-- **The writes that a queue's are like** are those that fit. -/
theorem serves_write (hbs : c.ignoreBs = true) (hpos : c.position.toNat ≤ maxSize.toNat)
    (halloc : 1024 ≤ c.allocated) : c.Serves (.write b n) ↔ c.Fits (.write b n) := by
  rw [Fits]
  obtain h | h := le_or_gt (c.position.toNat + 1024) maxSize.toNat
  · rw [serves_write_of_le hbs halloc h]
    omega
  · rw [serves_write_of_lt hbs hpos h]
    omega

/-- The reads that are like a queue's. -/
theorem serves_read (hn : c.Fits (.read b n)) (halloc : 1024 ≤ c.allocated) :
    c.Serves (.read b n) := by
  have hle : (c.available n).toNat ≤ 1024 := by
    rw [toNat_available]
    obtain rfl | hpos := hn
    · simp
    · exact (min_le_right _ _).trans hpos
  obtain ⟨s, hread, htaken⟩ := c.read_takes b n hle
  refine ⟨c.available n, s, hread, toNat_available c n, fun a ha ↦ ?_⟩
  rw [htaken.allocated]
  exact (htaken.accesses a ha).trans_le halloc

/-! ## The queue -/

/-- A buffer is a queue. -/
structure Traffic.Refines (t : Traffic) (q : BoundedQueue Byte capacity) : Prop where
  items : t.buffer.contents = q.items
  accepted : t.accepted = q.accepted
  returned : t.returned = q.returned
  ignoreBs : t.buffer.ignoreBs = true
  allocated : 1024 ≤ t.buffer.allocated
  nulFree : ∀ ch ∈ q.items, ch ≠ nul

/-- The move of the queue. -/
def Call.onQueue (q : BoundedQueue Byte capacity) : Call → BoundedQueue Byte capacity
  | .write b n => q.write (prefixOf b n.toNat)
  | .read _ n => q.read n.toNat

variable {t t' : Traffic} {q : BoundedQueue Byte capacity}

theorem Traffic.Refines.position_le (h : t.Refines q) :
    t.buffer.position.toNat ≤ maxSize.toNat := by
  rw [← length_contents, h.items]
  exact q.length_le.trans_eq maxSize_eq_capacity.symm

/-- How many bytes a write that fits takes. -/
theorem toNat_clamp (hpos : c.position.toNat ≤ maxSize.toNat) (hfits : c.Fits (.write b n)) :
    (c.clamp n).toNat = min (maxSize.toNat - c.position.toNat) n.toNat := by
  obtain ⟨h, -, hle⟩ | ⟨h, hle⟩ := hfits
  · rw [clamp_of_le h, min_eq_right hle]
  · rw [toNat_clamp_of_lt hpos h, min_eq_left hle]

/-- A write that fits is a write to the queue. -/
theorem Traffic.Refines.write (h : t.Refines q) (hnul : (Call.write b n).NulFree)
    (hfits : t.buffer.Fits (.write b n)) (hs : t.step (.write b n) = some t') :
    t'.Refines (q.write (prefixOf b n.toNat)) := by
  have hpos := h.position_le
  have hclamp := toNat_clamp hpos hfits
  have hmax := toNat_maxSize
  obtain ⟨s, hwrite, hedited, hwritten, hcontents⟩ :=
    write_ignoring (b := b) (n := n) h.ignoreBs hpos
    (by omega)
  have htake : (prefixOf b n.toNat).take q.room = prefixOf b (t.buffer.clamp n).toNat := by
    rw [take_prefixOf, hclamp, BoundedQueue.room, ← h.items, length_contents, maxSize_eq_capacity]
  rw [step, hwrite, Option.map_some, Option.some.injEq] at hs
  subst hs
  constructor
  · simp only [BoundedQueue.write, htake]
    rw [hcontents, h.items]
  · simp only [BoundedQueue.write, htake]
    rw [hwritten, h.accepted]
  · exact h.returned
  · exact hedited.ignoreBs.trans h.ignoreBs
  · have hgrow := grow_allocated (n := t.buffer.clamp n) hpos (by omega)
    have hold := h.allocated
    rw [hedited.allocated]
    split
    · exact hold
    · rw [hgrow]
      split <;> omega
  · intro ch hch
    obtain hold | hnew := BoundedQueue.mem_items_write.mp hch
    · exact h.nulFree ch hold
    · obtain ⟨i, hi, rfl⟩ := mem_prefixOf.mp (List.mem_of_mem_take hnew)
      exact hnul i hi

/-- A read that fits is a read from it. -/
theorem Traffic.Refines.read (h : t.Refines q) (hfits : t.buffer.Fits (.read b n))
    (hs : t.step (.read b n) = some t') : t'.Refines (q.read n.toNat) := by
  have havailable := toNat_available t.buffer n
  have hle : (t.buffer.available n).toNat ≤ 1024 := by
    rw [havailable]
    obtain rfl | hpos := hfits
    · simp
    · exact (min_le_right _ _).trans hpos
  obtain ⟨s, hread, htaken⟩ := t.buffer.read_takes b n hle
  rw [step, hread, Option.map_some, Option.some.injEq] at hs
  subst hs
  have hzero : t.buffer.available n = 0 ∨ t.buffer.position.toNat ≤ 1024 :=
    hfits.imp_left fun hn ↦ by
      rw [hn, available]
      simp
  have hbytes : (prefixOf s.dst (t.buffer.available n).toNat) = q.items.take n.toNat := by
    rw [← h.items, contents, take_prefixOf, ← havailable]
    refine prefixOf_congr fun i hlt ↦ ?_
    have hmem : t.buffer.buffer i ∈ q.items := by
      rw [← h.items]
      exact mem_prefixOf.mpr ⟨i, by omega, rfl⟩
    rw [htaken.dst i hlt, if_neg (h.nulFree _ hmem)]
  constructor
  · rw [htaken.contents (available_le _ _) hzero, h.items, havailable, ← length_contents, h.items,
      ← List.drop_eq_drop_min]
    rfl
  · exact h.accepted
  · simp only [BoundedQueue.read, hbytes, h.returned]
  · exact htaken.ignoreBs.trans h.ignoreBs
  · exact h.allocated.trans_eq htaken.allocated.symm
  · exact fun ch hch ↦ h.nulFree ch (BoundedQueue.mem_of_mem_read hch)

/-- **A call that fits is the queue's.** -/
theorem Traffic.Refines.step {call : Call} (h : t.Refines q) (hnul : call.NulFree)
    (hfits : t.buffer.Fits call) (hs : t.step call = some t') : t'.Refines (call.onQueue q) := by
  cases call with
  | write b n => exact h.write hnul hfits hs
  | read b n => exact h.read hfits hs

theorem Traffic.Flushed.refines (h : t.Flushed) : t.Refines (.empty Byte capacity) := by
  obtain ⟨⟨c, hflush⟩, hbs, halloc, haccepted, hreturned⟩ := h
  exact ⟨by rw [hflush]; rfl, haccepted, hreturned, hbs, halloc, List.forall_mem_nil _⟩

/-- Every run of calls that fit is a run of a queue. -/
theorem Traffic.exists_refines
    (h : trafficMachine.Reaches (fun t call ↦ call.NulFree ∧ t.buffer.Fits call) t) :
    ∃ q, t.Refines q := by
  refine @Machine.Reaches.invariant _ _ _ _ _ (fun t ↦ ∃ q, t.Refines q) (fun t hinit ↦ ?_)
    (fun t call t' ih hP hs ↦ ?_) h
  · exact ⟨_, hinit.refines⟩
  · obtain ⟨q, hq⟩ := ih
    exact ⟨_, hq.step hP.1 hP.2 hs⟩

/-- **As long as the calls fit, a buffer is a queue**: the bytes that have come out are the first of
those that have gone in, a write does what one of a queue does just if it fits, and so does a read
that fits. -/
theorem Traffic.queue_of_fits
    (h : trafficMachine.Reaches (fun t call ↦ call.NulFree ∧ t.buffer.Fits call) t) :
    t.returned <+: t.accepted ∧
    (∀ b n, t.buffer.Serves (.write b n) ↔ t.buffer.Fits (.write b n)) ∧
    ∀ b n, t.buffer.Fits (.read b n) → t.buffer.Serves (.read b n) := by
  obtain ⟨q, hq⟩ := Traffic.exists_refines h
  refine ⟨?_, fun b n ↦ serves_write hq.ignoreBs hq.position_le hq.allocated,
    fun b n hfits ↦ serves_read hfits hq.allocated⟩
  rw [hq.returned, hq.accepted]
  exact q.returned_prefix

/-- A new buffer. -/
def Traffic.fresh : Traffic := ⟨⟨0, 0, true, fun _ ↦ nul, 1024⟩, [], []⟩

theorem Traffic.flushed_fresh : Traffic.fresh.Flushed :=
  ⟨⟨Traffic.fresh.buffer, rfl⟩, rfl, le_rfl, rfl, rfl⟩

/-- `"hi"`. -/
def hi (i : ℕ) : Byte := if i = 0 then 0x68 else 0x69

/-- The buffer that holds it. -/
def Traffic.greeted : Traffic :=
  ⟨⟨2, 0, true, Function.update (Function.update (fun _ ↦ nul) 0 (hi 0)) 1 (hi 1), 1024⟩,
    [0x68, 0x69], []⟩

theorem Traffic.queue_of_fits_hi : ∃ t : Traffic,
    trafficMachine.step Traffic.fresh (.write hi 2) = some Traffic.greeted ∧
      trafficMachine.step Traffic.greeted (.read hi 1) = some t ∧
      t.returned = [0x68] ∧ t.returned <+: t.accepted := by
  have hnul : (Call.write hi 2).NulFree := fun i _ ↦ by
    rw [hi]
    split <;> decide
  have hnul' : (Call.read hi 1).NulFree := trivial
  have hfirst : Traffic.fresh.buffer.Fits (.write hi 2) := .inl ⟨by decide, by decide, by decide⟩
  have hsecond : Traffic.greeted.buffer.Fits (.read hi 1) := .inr (by decide)
  obtain ⟨s, hread, htaken⟩ := Traffic.greeted.buffer.read_takes hi 1 (by decide)
  have hwrite : trafficMachine.step Traffic.fresh (.write hi 2) = some Traffic.greeted := rfl
  have hstep : trafficMachine.step Traffic.greeted (.read hi 1) =
      some { Traffic.greeted with buffer := s.buffer, returned := prefixOf s.dst 1 } := by
    rw [trafficMachine_step, Traffic.step, hread]
    rfl
  have hbyte : s.dst 0 = 0x68 := htaken.dst 0 (by decide)
  have hreach : trafficMachine.Reaches (fun t call ↦ call.NulFree ∧ t.buffer.Fits call)
      Traffic.greeted :=
    .step (.initial Traffic.flushed_fresh) ⟨hnul, hfirst⟩ hwrite
  have hreach' := hreach.step ⟨hnul', hsecond⟩ hstep
  exact ⟨_, hwrite, hstep, congrArg ([·]) hbyte, (Traffic.queue_of_fits hreach').1⟩

/-- A single write of 1153 bytes to a new buffer is more than the block has room for. -/
theorem Traffic.not_queue_large :
    ¬ ∀ t, trafficMachine.Reaches (fun _ call ↦ call.NulFree) t →
      t.returned <+: t.accepted ∧ ∀ call : Call, call.NulFree → t.buffer.Serves call := by
  intro hqueue
  have hreach : trafficMachine.Reaches (fun _ call ↦ call.NulFree) Traffic.fresh :=
    .initial Traffic.flushed_fresh
  have hserves := (hqueue _ hreach).2 (.write (fun _ ↦ newline) 1153)
    fun _ _ ↦ show newline ≠ nul by decide
  rw [serves_write rfl (Nat.zero_le _) le_rfl] at hserves
  obtain ⟨-, hle, -⟩ | ⟨hlt, -⟩ := hserves
  · exact absurd hle (by decide)
  · exact absurd hlt (by decide)

end CharBuffer

end Borrrdex
