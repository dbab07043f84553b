import Borrrdex.Devices.Pty

/-!
# Writing to a pseudoterminal

`pty_device::write` hands all its bytes to the buffer of the other side and tries again with what
has not been counted.  That the buffer was full is not the only reason for a count that is too
small, and the size of the next try is that of the whole:

* a backspace on an empty line is taken but not counted, so that it is tried again, for ever;
* what is tried again is read up to its own beginning plus the whole size;
* near its maximum a buffer takes all that it has room for, be it more than the size.

`Cuts` are the lines and texts for which the tries happen to fit: each chunk is counted as a whole,
and the last one ends with the text.  `passesEach_iff` says that for a write without echo there are
no others, and what it takes for one with it.
-/

set_option autoImplicit false

namespace Borrrdex

namespace Editor

variable {ignoreBs : Bool} {line : List Byte} {ch : Byte} {chars chars' : List Byte} {e : Editor}

/-- The line, after a character. -/
def typed (ignoreBs : Bool) (line : List Byte) (ch : Byte) : List Byte :=
  if ch = backspace ∧ ignoreBs = false then line.dropLast else line ++ [ch]

/-- A backspace that has nothing to take back. -/
def Lost (ignoreBs : Bool) (line : List Byte) (ch : Byte) : Prop :=
  ch = backspace ∧ ignoreBs = false ∧ line = []

instance : Decidable (Lost ignoreBs line ch) := inferInstanceAs (Decidable (_ ∧ _ ∧ _))

/-- Every character is counted. -/
def Counted (ignoreBs : Bool) : List Byte → List Byte → Prop
  | _, [] => True
  | line, ch :: chars => ¬ Lost ignoreBs line ch ∧ Counted ignoreBs (typed ignoreBs line ch) chars

theorem put_line (e : Editor) (ch : Byte) :
    (e.put ignoreBs ch).line = typed ignoreBs e.line ch := by
  rw [put, typed]
  split
  · split <;> simp [*]
  · rfl

theorem put_written (ignoreBs : Bool) (e : Editor) (ch : Byte) :
    (e.put ignoreBs ch).written = e.written + if Lost ignoreBs e.line ch then 0 else 1 := by
  by_cases hbs : ch = backspace ∧ ignoreBs = false
  · by_cases hnil : e.line = [] <;> simp [put, Lost, hbs, hnil]
  · have hnot : ¬ Lost ignoreBs e.line ch := fun h ↦ hbs ⟨h.1, h.2.1⟩
    simp [put, hbs, hnot]

theorem foldl_put_line (chars : List Byte) (e : Editor) :
    (chars.foldl (put ignoreBs) e).line = chars.foldl (typed ignoreBs) e.line := by
  induction chars generalizing e with
  | nil => rfl
  | cons ch chars ih => rw [List.foldl_cons, ih, put_line, List.foldl_cons]

/-- **All that is typed is counted, or less than that.** -/
theorem foldl_put_written (ignoreBs : Bool) (chars : List Byte) (e : Editor) :
    (chars.foldl (put ignoreBs) e).written ≤ e.written + chars.length ∧
      ((chars.foldl (put ignoreBs) e).written = e.written + chars.length ↔
        Counted ignoreBs e.line chars) := by
  induction chars generalizing e with
  | nil => simp [Counted]
  | cons ch chars ih =>
    obtain ⟨hle, hiff⟩ := ih (e.put ignoreBs ch)
    rw [put_line] at hiff
    rw [List.foldl_cons, List.length_cons, Counted, ← hiff]
    have hwritten := put_written ignoreBs e ch
    by_cases hlost : Lost ignoreBs e.line ch
    · rw [if_pos hlost] at hwritten
      simp only [hlost, not_true_eq_false, false_and, iff_false]
      omega
    · rw [if_neg hlost] at hwritten
      simp only [hlost, not_false_eq_true, true_and]
      omega

theorem length_typed_le (ignoreBs : Bool) (line : List Byte) (ch : Byte) :
    (typed ignoreBs line ch).length ≤ line.length + 1 := by
  rw [typed]
  split <;> simp
  omega

theorem length_foldl_typed_le (ignoreBs : Bool) (chars line : List Byte) :
    (chars.foldl (typed ignoreBs) line).length ≤ line.length + chars.length := by
  induction chars generalizing line with
  | nil => simp
  | cons ch chars ih =>
    have hle := ih (typed ignoreBs line ch)
    have hone := length_typed_le ignoreBs line ch
    rw [List.foldl_cons, List.length_cons]
    omega

@[simp] theorem typed_ignoring (line : List Byte) (ch : Byte) :
    typed true line ch = line ++ [ch] := by
  simp [typed]

theorem foldl_typed_ignoring (chars line : List Byte) :
    chars.foldl (typed true) line = line ++ chars := by
  induction chars generalizing line with
  | nil => simp
  | cons ch chars ih => rw [List.foldl_cons, ih, typed_ignoring, List.append_assoc,
      List.singleton_append]

theorem counted_ignoring (chars line : List Byte) : Counted true line chars := by
  induction chars generalizing line with
  | nil => trivial
  | cons ch chars ih => exact ⟨by simp [Lost], ih _⟩

end Editor

namespace CharBuffer

/-- How many bytes are taken in one go, when so many are in the buffer. -/
def chunk (pos n : ℕ) : ℕ := if pos + 1024 ≤ capacity then n else capacity - pos

variable {c : CharBuffer} {n : U64} {b : ℕ → Byte} {s : WriteState} {pos m : ℕ}

theorem chunk_of_le (h : pos + 1024 ≤ capacity) : chunk pos m = m := by
  rw [chunk, if_pos h]

theorem chunk_of_lt (h : capacity < pos + 1024) : chunk pos m = capacity - pos := by
  rw [chunk, if_neg (not_le.mpr h)]

/-- More than there is room for is taken only as a whole. -/
theorem chunk_cases (pos m : ℕ) :
    chunk pos m = m ∨ capacity < pos + 1024 ∧ chunk pos m = capacity - pos :=
  (le_or_gt (pos + 1024) capacity).imp chunk_of_le fun h ↦ ⟨h, chunk_of_lt h⟩

theorem toNat_clamp_eq_chunk (h : c.contents.length ≤ capacity) :
    (c.clamp n).toNat = chunk c.contents.length n.toNat := by
  have hmax := maxSize_eq_capacity
  rw [length_contents] at *
  obtain hle | hlt := le_or_gt (c.position.toNat + 1024) capacity
  · rw [clamp_of_le (hle.trans_eq hmax.symm), chunk_of_le hle]
  · rw [toNat_clamp_of_lt (h.trans_eq hmax.symm) (hmax.trans_lt hlt), chunk_of_lt hlt, hmax]

theorem write_of_lt (h : c.contents.length ≤ capacity) (b : ℕ → Byte)
    (hn : chunk c.contents.length n.toNat < 2 ^ 32) :
    ∃ s, c.write b n = some s ∧ Edited c b (c.clamp n) s := by
  have hcapacity := capacity_eq
  have hclamp := toNat_clamp_eq_chunk (n := n) h
  have hpos := length_contents c
  exact c.write_edits b n (by omega) (by omega)

theorem lt_of_write (h : c.contents.length ≤ capacity) (hs : c.write b n = some s) :
    chunk c.contents.length n.toNat < 2 ^ 32 := by
  by_contra hbig
  rw [write_eq_none b n (toNat_clamp_eq_chunk h ▸ not_lt.mp hbig)] at hs
  cases hs

/-- A write, in terms of the line. -/
structure Types (c : CharBuffer) (b : ℕ → Byte) (m : ℕ) (s : WriteState) : Prop where
  taken : s.taken = m
  line : s.buffer.contents = (prefixOf b m).foldl (Editor.typed c.ignoreBs) c.contents
  written_le : s.written ≤ m
  written_eq : s.written = m ↔ Editor.Counted c.ignoreBs c.contents (prefixOf b m)
  ignoreBs : s.buffer.ignoreBs = c.ignoreBs

theorem types_of_write (h : c.contents.length ≤ capacity) (hs : c.write b n = some s) :
    Types c b (chunk c.contents.length n.toNat) s := by
  have hclamp := toNat_clamp_eq_chunk (n := n) h
  obtain ⟨s', hwrite, hedited⟩ := write_of_lt h b (lt_of_write h hs)
  obtain rfl : s' = s := Option.some.inj (hwrite.symm.trans hs)
  have heditor := hedited.editor
  rw [hclamp] at heditor
  have hwritten := Editor.foldl_put_written c.ignoreBs
    (prefixOf b (chunk c.contents.length n.toNat)) ⟨c.contents, c.lines, 0⟩
  rw [← heditor, length_prefixOf, zero_add] at hwritten
  refine ⟨hedited.taken.trans hclamp, ?_, hwritten.1, hwritten.2, hedited.ignoreBs⟩
  have hline := congrArg Editor.line heditor
  rw [Editor.foldl_put_line] at hline
  exact hline

/-- A few bytes, to a buffer that ignores backspaces. -/
theorem write_few (hbs : c.ignoreBs = true) (h : c.contents.length ≤ capacity) (b : ℕ → Byte)
    (hn : n.toNat ≤ 1024) :
    ∃ s, c.write b n = some s ∧ s.taken = chunk c.contents.length n.toNat ∧
      s.buffer.contents.length = c.contents.length + chunk c.contents.length n.toNat ∧
      s.buffer.contents.length ≤ capacity ∧ s.buffer.ignoreBs = true := by
  have hchunk : chunk c.contents.length n.toNat ≤ 1024 ∧
      c.contents.length + chunk c.contents.length n.toNat ≤ capacity := by
    obtain hle | hlt := le_or_gt (c.contents.length + 1024) capacity
    · rw [chunk_of_le hle]
      omega
    · rw [chunk_of_lt hlt]
      omega
  obtain ⟨s, hs, -⟩ := write_of_lt (n := n) h b (by omega)
  have htypes := types_of_write h hs
  have hline := htypes.line
  rw [hbs, Editor.foldl_typed_ignoring] at hline
  have hlength := congrArg List.length hline
  rw [List.length_append, length_prefixOf] at hlength
  exact ⟨s, hs, htypes.taken, hlength, by omega, htypes.ignoreBs.trans hbs⟩

end CharBuffer

open CharBuffer

namespace Pty

/-! ## The echo -/

/-- How many bytes a character is echoed as. -/
def echoWidth (ch : Byte) : ℕ := if ch = escape then 2 else 1

/-- How many bytes there are in a buffer when some characters have been echoed into it. -/
def echoed (pos : ℕ) (chars : List Byte) : ℕ :=
  chars.foldl (fun pos ch ↦ pos + chunk pos (echoWidth ch)) pos

/-- A character that is not escaped is handed to the buffer at its place in the text, and what the
buffer takes there is no more than what is left of it. -/
def EchoInside (b : ℕ → Byte) (n pos : ℕ) : Prop :=
  ∀ i < n, b i ≠ escape → i + chunk (echoed pos (prefixOf b i)) 1 ≤ n

/-- Echoes go into the buffer. -/
structure Echo.Sound (s : Echo) : Prop where
  ignoreBs : s.buffer.ignoreBs = true
  length_le : s.buffer.contents.length ≤ capacity

variable {b behind : ℕ → Byte} {n : U64} {s : Echo} {i : ℕ}

theorem Echo.step_spec (h : s.Sound) (b behind : ℕ → Byte) (i : ℕ) :
    ∃ s', s.step b behind i = some s' ∧ s'.Sound ∧
      s'.buffer.contents.length =
        s.buffer.contents.length + chunk s.buffer.contents.length (echoWidth (b i)) ∧
      s'.reach = if b i = escape then max s.reach (i + 1)
        else max s.reach (max (i + 1) (i + chunk s.buffer.contents.length 1)) := by
  rw [Echo.step, echoWidth]
  by_cases hescape : b i = escape
  · obtain ⟨t, ht, -, hlength, hle, hbs⟩ := write_few (n := 2) h.ignoreBs h.length_le (caret behind)
      (by decide)
    simp only [if_pos hescape, ht]
    exact ⟨_, rfl, ⟨hbs, hle⟩, hlength, rfl⟩
  · obtain ⟨t, ht, htaken, hlength, hle, hbs⟩ := write_few (n := 1) h.ignoreBs h.length_le
      (fun k ↦ b (i + k)) (by decide)
    simp only [if_neg hescape, ht]
    exact ⟨_, rfl, ⟨hbs, hle⟩, hlength, by rw [htaken]; rfl⟩

/-- What there is to know of an echo: it returns if an `unsigned` counts the bytes, and then it has
read them all. -/
structure Echoed (b : ℕ → Byte) (n : ℕ) (s s' : Echo) : Prop where
  sound : s'.Sound
  le_reach : n ≤ s'.reach
  inside : s'.reach ≤ n ↔ s.reach ≤ n ∧ EchoInside b n s.buffer.contents.length

theorem echoed_succ (pos : ℕ) (b : ℕ → Byte) (i : ℕ) :
    echoed pos (prefixOf b (i + 1)) =
      echoed pos (prefixOf b i) + chunk (echoed pos (prefixOf b i)) (echoWidth (b i)) := by
  rw [prefixOf_succ, echoed, List.foldl_append]
  rfl

/-- An echo on its way to the `n`th character. -/
structure Echoing (b : ℕ → Byte) (n : ℕ) (s : Echo) (i : ℕ) (s' : Echo) : Prop where
  sound : s'.Sound
  length : s'.buffer.contents.length = echoed s.buffer.contents.length (prefixOf b i)
  le_reach : i ≤ s'.reach
  inside : s'.reach ≤ n ↔ s.reach ≤ n ∧
    ∀ k < i, b k ≠ escape → k + chunk (echoed s.buffer.contents.length (prefixOf b k)) 1 ≤ n

theorem Echoing.step {m : ℕ} {s' : Echo} (h : Echoing b m s i s') (hi : i < m) (behind : ℕ → Byte) :
    ∃ s'', s'.step b behind i = some s'' ∧ Echoing b m s (i + 1) s'' := by
  obtain ⟨s'', hstep, hsound, hlength, hreach⟩ := Echo.step_spec h.sound b behind i
  have hinside := h.inside
  rw [h.length] at hlength hreach
  refine ⟨s'', hstep, hsound, hlength.trans (echoed_succ _ _ _).symm, ?_, ?_⟩
  · rw [hreach]
    split <;> omega
  · rw [Nat.forall_lt_succ_right, ← and_assoc, ← hinside, hreach]
    by_cases hescape : b i = escape
    · simp only [hescape, if_true, ne_eq, not_true_eq_false, false_implies, and_true]
      omega
    · simp only [hescape, if_false, ne_eq, not_false_eq_true, true_implies]
      omega

theorem Echo.body_some {s' : Echo} {i : U32} (h : s.step b behind i.toNat = some s') :
    Echo.body b behind i (some s) = .inr (some s') := by
  rw [Echo.body, Option.bind_some, h]

theorem echoLoop_returns (h : s.Sound) (b behind : ℕ → Byte) (hn : n.toNat < 2 ^ 32) :
    ∃ s', echoLoop b behind n s = some s' ∧ Echoed b n.toNat s s' := by
  have hinit : Echoing b n.toNat s 0 s := ⟨h, rfl, Nat.zero_le _, by simp⟩
  obtain ⟨j, o, hloop, -, s', rfl, hs'⟩ : ∃ (j : U32) (o : Option Echo),
      forBelow n.toNat (Echo.body b behind) 0 (some s) = some (j, o) ∧
        j.toNat = max (0 : U32).toNat n.toNat ∧
        ∃ s', o = some s' ∧ Echoing b n.toNat s (max (0 : U32).toNat n.toNat) s' :=
    forBelow_rule hn (fun i o ↦ ∃ s', o = some s' ∧ Echoing b n.toNat s i s') ⟨s, rfl, hinit⟩
      (fun i o _ hi ho ↦ by
        obtain ⟨s', rfl, hs'⟩ := ho
        obtain ⟨s'', hstep, hs''⟩ := hs'.step hi behind
        exact ⟨some s'', Echo.body_some hstep, s'', rfl, hs''⟩)
  refine ⟨s', by rw [echoLoop, hloop]; rfl, ?_⟩
  have hmax : max (0 : U32).toNat n.toNat = n.toNat := by simp
  rw [hmax] at hs'
  exact ⟨hs'.sound, hs'.le_reach, hs'.inside⟩

theorem echoLoop_eq_none (h : s.Sound) (b behind : ℕ → Byte) (hn : 2 ^ 32 ≤ n.toNat) :
    echoLoop b behind n s = none := by
  rw [echoLoop, forBelow_eq_none hn (fun o ↦ ∃ s : Echo, o = some s ∧ s.Sound) ⟨s, rfl, h⟩]
  · rfl
  · rintro i o ⟨s', rfl, hs'⟩
    obtain ⟨s'', hstep, hs'', -⟩ := Echo.step_spec hs' b behind i.toNat
    exact ⟨some s'', Echo.body_some hstep, s'', rfl, hs''⟩

/-! ## One call -/

/-- The buffer that a write goes into. -/
def target : DeviceType → Pty → CharBuffer
  | .worker, p => p.controller
  | .controller, p => p.worker

/-- The write is echoed. -/
def Echoes (t : DeviceType) (p : Pty) : Prop := t = .controller ∧ p.echo = true

instance (t : DeviceType) (p : Pty) : Decidable (Echoes t p) := inferInstanceAs (Decidable (_ ∧ _))

/-- The controller's buffer ignores backspaces, as in every pty; and no buffer has more in it than
there is room for. -/
structure Sound (t : DeviceType) (p : Pty) : Prop where
  target_le : (p.target t).contents.length ≤ capacity
  ignoreBs : p.controller.ignoreBs = true
  controller_le : t = .controller → p.controller.contents.length ≤ capacity

variable {t : DeviceType} {p : Pty} {r : Written}

/-- What there is to know of a call. -/
structure Called (t : DeviceType) (b : ℕ → Byte) (n : ℕ) (p : Pty) (r : Written) : Prop where
  taken : r.taken = chunk (p.target t).contents.length n
  taken_lt : r.taken < 2 ^ 32
  line : (r.pty.target t).contents =
    (prefixOf b r.taken).foldl (Editor.typed (p.target t).ignoreBs) (p.target t).contents
  ret_le : r.ret ≤ r.taken
  ret_eq : r.ret = r.taken ↔
    Editor.Counted (p.target t).ignoreBs (p.target t).contents (prefixOf b r.taken)
  ignoreBs : (r.pty.target t).ignoreBs = (p.target t).ignoreBs
  controller : r.pty.controller.ignoreBs = true ∧
    (t = .controller → r.pty.controller.contents.length ≤ capacity)
  echoes : Echoes t r.pty ↔ Echoes t p
  reach : ¬ (Echoes t p ∧ r.ret ≠ 0) → r.reach = r.taken
  le_reach : Echoes t p → r.ret ≠ 0 → n < 2 ^ 32 ∧ n ≤ r.reach
  inside : Echoes t p → r.ret ≠ 0 →
    (r.reach ≤ n ↔ r.taken ≤ n ∧ EchoInside b n p.controller.contents.length)

theorem workerWrite_called (h : p.Sound .worker) (hr : p.workerWrite b n = some r) :
    Called .worker b n.toNat p r := by
  rw [workerWrite, Option.bind_eq_bind, Option.bind_eq_some_iff] at hr
  obtain ⟨s, hs, hr⟩ := hr
  have htypes := types_of_write h.target_le hs
  have hlt := lt_of_write h.target_le hs
  have hnot (q : Pty) : ¬ Echoes .worker q := by simp [Echoes]
  obtain rfl := Option.some.inj hr
  have htaken := htypes.taken
  constructor
  · exact htaken
  · exact htaken.trans_lt hlt
  · rw [htaken]
    exact htypes.line
  · rw [htaken]
    exact htypes.written_le
  · rw [htaken]
    exact htypes.written_eq
  · exact htypes.ignoreBs
  · exact ⟨htypes.ignoreBs.trans h.ignoreBs, fun ht ↦ absurd ht (by decide)⟩
  · exact iff_of_false (hnot _) (hnot _)
  · exact fun _ ↦ rfl
  · exact fun hechoes ↦ absurd hechoes (hnot _)
  · exact fun hechoes ↦ absurd hechoes (hnot _)

/-- What is echoed, if anything is. -/
theorem echoBack_eq_some {written taken : ℕ} {e : Echo} (hbs : p.controller.ignoreBs = true)
    (hle : p.controller.contents.length ≤ capacity)
    (he : p.echoBack b behind n written taken = some e) :
    e.Sound ∧ if p.echo ∧ written ≠ 0 then
      n.toNat < 2 ^ 32 ∧ Echoed b n.toNat ⟨p.controller, taken⟩ e else e.reach = taken := by
  have hsound : Echo.Sound ⟨p.controller, taken⟩ := ⟨hbs, hle⟩
  rw [echoBack] at he
  split at he
  · next h =>
    obtain hbig | hlt := le_or_gt (2 ^ 32) n.toNat
    · rw [echoLoop_eq_none hsound b behind hbig] at he
      cases he
    · obtain ⟨e', he', hechoed⟩ := echoLoop_returns hsound b behind hlt
      obtain rfl := Option.some.inj (he'.symm.trans he)
      rw [if_pos h]
      exact ⟨hechoed.sound, hlt, hechoed⟩
  · next h =>
    obtain rfl := Option.some.inj he
    rw [if_neg h]
    exact ⟨hsound, rfl⟩

theorem controllerWrite_called (h : p.Sound .controller)
    (hr : p.controllerWrite b behind n = some r) :
    Called .controller b n.toNat p r := by
  obtain ⟨s, e, hs, he, hret, htaken, hreach, hworker, hcontroller, hlflag, -⟩ :=
    controllerWrite_eq_some hr
  have htypes := types_of_write h.target_le hs
  have hlt := lt_of_write h.target_le hs
  have hechoes : Echoes .controller p ↔ p.echo = true := by simp [Echoes]
  obtain ⟨hsound, hecho⟩ := echoBack_eq_some h.ignoreBs (h.controller_le rfl) he
  have htaken' : r.taken = chunk (p.target .controller).contents.length n.toNat :=
    htaken.trans htypes.taken
  constructor
  · exact htaken'
  · exact htaken'.trans_lt hlt
  · rw [htaken']
    exact (congrArg CharBuffer.contents hworker).trans htypes.line
  · rw [htaken', hret]
    exact htypes.written_le
  · rw [htaken', hret]
    exact htypes.written_eq
  · exact (congrArg CharBuffer.ignoreBs hworker).trans htypes.ignoreBs
  · rw [hcontroller]
    exact ⟨hsound.ignoreBs, fun _ ↦ hsound.length_le⟩
  · rw [Echoes, Echoes, echo_congr hlflag]
  · intro hnot
    rw [if_neg fun h ↦ hnot ⟨hechoes.mpr h.1, hret ▸ h.2⟩] at hecho
    rw [hreach, htaken, hecho]
  · intro hyes hne
    rw [if_pos ⟨hechoes.mp hyes, hret ▸ hne⟩] at hecho
    rw [hreach]
    exact ⟨hecho.1, hecho.2.le_reach⟩
  · intro hyes hne
    rw [if_pos ⟨hechoes.mp hyes, hret ▸ hne⟩] at hecho
    rw [hreach, htaken]
    exact hecho.2.inside

theorem called_of_eq_some (h : p.Sound t) (hr : p.writeFunc behind t b n = some r) :
    Called t b n.toNat p r := by
  cases t with
  | worker => exact workerWrite_called h hr
  | controller => exact controllerWrite_called h hr

theorem writeFunc_returns (h : p.Sound t) (b behind : ℕ → Byte)
    (hn : chunk (p.target t).contents.length n.toNat < 2 ^ 32)
    (hecho : Echoes t p → n.toNat < 2 ^ 32) : ∃ r, p.writeFunc behind t b n = some r := by
  obtain ⟨s, hs, -⟩ := write_of_lt h.target_le b hn
  cases t with
  | worker =>
    have hs' : p.controller.write b n = some s := hs
    exact ⟨_, by rw [writeFunc, workerWrite, Option.bind_eq_bind, hs']; rfl⟩
  | controller =>
    have hs' : p.worker.write b n = some s := hs
    obtain ⟨-, hcontroller, hlflag⟩ := unblockWorker_same { p with worker := s.buffer }
    obtain ⟨e, he⟩ : ∃ e, p.echoBack b behind n s.written s.taken = some e := by
      rw [echoBack]
      split
      · next hyes =>
        obtain ⟨e, he, -⟩ := echoLoop_returns (s := ⟨p.controller, s.taken⟩)
          ⟨h.ignoreBs, h.controller_le rfl⟩ b behind (hecho ⟨rfl, hyes.1⟩)
        exact ⟨e, he⟩
      · exact ⟨_, rfl⟩
    have he' := (echoBack_congr hlflag hcontroller s.written s.taken).trans he
    exact ⟨_, by
      simp only [writeFunc, controllerWrite, Option.bind_eq_bind, hs', Option.bind_some, he']
      rfl⟩

theorem ret_le_taken (hr : p.writeFunc behind t b n = some r) : r.ret ≤ r.taken := by
  cases t with
  | worker =>
    rw [writeFunc, workerWrite, Option.bind_eq_bind, Option.bind_eq_some_iff] at hr
    obtain ⟨s, hs, hr⟩ := hr
    obtain rfl := Option.some.inj hr
    exact written_le_taken hs
  | controller =>
    obtain ⟨s, e, hs, -, hret, htaken, -⟩ := controllerWrite_eq_some hr
    rw [hret, htaken]
    exact written_le_taken hs

/-! ## Chunks -/

/-- A text whose bytes are counted and read as they should, when it is handed to a buffer in chunks
with the size of the whole. -/
inductive Cuts (ignoreBs : Bool) (n : ℕ) : List Byte → List Byte → Prop
  | last {line rest : List Byte} (h : chunk line.length n = rest.length)
      (hlt : rest.length < 2 ^ 32)
      (hcounted : Editor.Counted ignoreBs line rest) : Cuts ignoreBs n line rest
  | more {line rest : List Byte} (hpos : 0 < chunk line.length n)
      (h : chunk line.length n < rest.length)
      (hcounted : Editor.Counted ignoreBs line (rest.take (chunk line.length n)))
      (hrest : Cuts ignoreBs n ((rest.take (chunk line.length n)).foldl
        (Editor.typed ignoreBs) line)
        (rest.drop (chunk line.length n))) : Cuts ignoreBs n line rest

/-- What is left of a text. -/
def rest (b : ℕ → Byte) (n w : ℕ) : List Byte := prefixOf (fun i ↦ b (w + i)) (n - w)

@[simp] theorem length_rest (b : ℕ → Byte) (n w : ℕ) : (rest b n w).length = n - w :=
  length_prefixOf _ _

theorem rest_take {n w m : ℕ} (b : ℕ → Byte) (h : w + m ≤ n) :
    (rest b n w).take m = prefixOf (fun i ↦ b (w + i)) m := by
  rw [rest, take_prefixOf, min_eq_left (by omega)]

theorem rest_drop (b : ℕ → Byte) (n w m : ℕ) : (rest b n w).drop m = rest b n (w + m) := by
  rw [rest, rest, drop_prefixOf, Nat.sub_sub]
  exact prefixOf_congr fun i _ ↦ by rw [Nat.add_assoc]

/-! ## All of them -/

/-- What later calls have done to a transfer. -/
structure Transfer.Extends (s s' : Transfer) : Prop where
  passed : s.passed <+: s'.passed
  reach : s.reach ≤ s'.reach
  written : s'.written + s.passed.length ≤ s'.passed.length + s.written

namespace Transfer

variable {s s₁ s' : Transfer} {tests : ℕ}

theorem Extends.trans {s s₁ s₂ : Transfer} (h : s.Extends s₁) (h' : s₁.Extends s₂) : s.Extends s₂ :=
  ⟨h.passed.trans h'.passed, h.reach.trans h'.reach, by
    have := h.written
    have := h'.written
    omega⟩

theorem call_eq_some (hs : s.call behind t b n = some s₁) :
    ∃ r, s.pty.writeFunc behind t (fun i ↦ b (s.written + i)) n = some r ∧ s₁ =
      { pty := r.pty
        written := s.written + r.ret
        passed := s.passed ++ (List.range r.taken).map (s.written + ·)
        reach := max s.reach (s.written + r.reach) } := by
  rw [call, Option.bind_eq_bind, Option.bind_eq_some_iff] at hs
  obtain ⟨r, hr, hs⟩ := hs
  exact ⟨r, hr, (Option.some.inj hs).symm⟩

theorem call_extends (hs : s.call behind t b n = some s₁) : s.Extends s₁ := by
  obtain ⟨r, hr, rfl⟩ := call_eq_some hs
  have hle := ret_le_taken hr
  refine ⟨List.prefix_append _ _, le_max_left _ _, ?_⟩
  simp only [List.length_append, List.length_map, List.length_range]
  omega

theorem retry_extends (hs : s.retry behind t b n tests = some s') : s.Extends s' := by
  induction tests generalizing s with
  | zero => cases hs
  | succ tests ih =>
    rw [retry] at hs
    split at hs
    · obtain ⟨s₁, hcall, hretry⟩ := Option.bind_eq_some_iff.mp hs
      exact (call_extends hcall).trans (ih hretry)
    · obtain rfl := Option.some.inj hs
      exact ⟨List.prefix_rfl, le_rfl, by omega⟩

/-- The bytes have been passed, each once and in order, and no others have been read. -/
structure Done (n : ℕ) (s : Transfer) : Prop where
  written : s.written = n
  passed : s.passed = List.range n
  reach_le : s.reach ≤ n

/-- A call of a transfer that has lost nothing so far, with the whole of its chunk counted. -/
structure Moves (t : DeviceType) (b : ℕ → Byte) (n : ℕ) (s s₁ : Transfer) (m : ℕ) : Prop where
  lt : m < 2 ^ 32
  written : s₁.written = s.written + m
  passed : s₁.passed = List.range s₁.written
  le : s₁.written ≤ n
  counted : Editor.Counted (s.pty.target t).ignoreBs (s.pty.target t).contents
    (prefixOf (fun i ↦ b (s.written + i)) m)
  line : (s₁.pty.target t).contents = (prefixOf (fun i ↦ b (s.written + i)) m).foldl
    (Editor.typed (s.pty.target t).ignoreBs) (s.pty.target t).contents
  ignoreBs : (s₁.pty.target t).ignoreBs = (s.pty.target t).ignoreBs
  sound : s₁.written < n → s₁.pty.Sound t
  echoes : Echoes t s₁.pty ↔ Echoes t s.pty

theorem moves_of_called (h : s.pty.Sound t) (hpassed : s.passed = List.range s.written)
    {r : Written}
    (hcalled : Called t (fun i ↦ b (s.written + i)) n.toNat s.pty r) (hret : r.ret = r.taken)
    (hle : s.written + r.taken ≤ n.toNat) :
    Moves t b n.toNat s
      { pty := r.pty
        written := s.written + r.ret
        passed := s.passed ++ (List.range r.taken).map (s.written + ·)
        reach := max s.reach (s.written + r.reach) } r.taken := by
  have htaken := hcalled.taken
  refine ⟨hcalled.taken_lt, by rw [hret], by rw [hpassed, hret, List.range_add],
    by rw [hret]; exact hle,
    hcalled.ret_eq.mp hret, hcalled.line, hcalled.ignoreBs, fun hlt ↦
      ⟨?_, hcalled.controller.1, hcalled.controller.2⟩,
    hcalled.echoes⟩
  have hlength := Editor.length_foldl_typed_le (s.pty.target t).ignoreBs
    (prefixOf (fun i ↦ b (s.written + i)) r.taken) (s.pty.target t).contents
  rw [length_prefixOf, ← hcalled.line] at hlength
  have hroom := h.target_le
  obtain hall | ⟨-, hrest⟩ := chunk_cases (s.pty.target t).contents.length n.toNat
  · simp only [hret] at hlt
    omega
  · exact hlength.trans (by omega)

/-- What a call does if all turns out well in the end. -/
theorem moves_of_done (h : s.pty.Sound t) (hpassed : s.passed = List.range s.written)
    (hs : s.call behind t b n = some s₁) (hext : s₁.Extends s') (hdone : s'.Done n.toNat) :
    Moves t b n.toNat s s₁ (chunk (s.pty.target t).contents.length n.toNat) := by
  obtain ⟨r, hr, rfl⟩ := call_eq_some hs
  have hcalled := called_of_eq_some h hr
  have hret : r.ret = r.taken := by
    have hle := hcalled.ret_le
    have hlost := hext.written
    simp only [hdone.written, hdone.passed, hpassed, List.length_append, List.length_map,
      List.length_range] at hlost
    omega
  have hle : s.written + r.taken ≤ n.toNat := by
    have hprefix := hext.passed.length_le
    simpa [hpassed, hdone.passed] using hprefix
  exact hcalled.taken ▸ moves_of_called h hpassed hcalled hret hle

/-- A transfer that is done has cut what was left of its text in chunks. -/
theorem cuts_of_retry (h : s.pty.Sound t) (hpassed : s.passed = List.range s.written)
    (hs : s.call behind t b n = some s₁) (hretry : s₁.retry behind t b n tests = some s')
    (hdone : s'.Done n.toNat) :
    Cuts (s.pty.target t).ignoreBs n.toNat (s.pty.target t).contents
      (rest b n.toNat s.written) := by
  induction tests generalizing s s₁ with
  | zero => cases hretry
  | succ tests ih =>
    have hmoves := moves_of_done h hpassed hs (retry_extends hretry) hdone
    generalize hm : chunk (s.pty.target t).contents.length n.toNat = m at hmoves
    have hle := hmoves.le
    have hwritten := hmoves.written
    have htake : (rest b n.toNat s.written).take m = prefixOf (fun i ↦ b (s.written + i)) m :=
      rest_take b (by omega)
    rw [retry] at hretry
    split at hretry
    · next hlt =>
      obtain ⟨s₂, hcall, hretry⟩ := Option.bind_eq_some_iff.mp hretry
      have hcuts := ih (hmoves.sound hlt) hmoves.passed hcall hretry
      rw [hmoves.ignoreBs, hmoves.line, hwritten, ← rest_drop] at hcuts
      obtain hzero | hpos := Nat.eq_zero_or_pos m
      · rw [hzero] at hcuts
        exact hcuts
      · refine .more (hm ▸ hpos) (by rw [hm, length_rest]; omega) ?_ ?_
        · rw [hm, htake]
          exact hmoves.counted
        · rw [hm, htake]
          exact hcuts
    · refine .last (by rw [hm, length_rest]; omega)
        (by rw [length_rest]; have := hmoves.lt; omega) ?_
      have hall : rest b n.toNat s.written = prefixOf (fun i ↦ b (s.written + i)) m := by
        rw [← htake, List.take_of_length_le (by rw [length_rest]; omega)]
      rw [hall]
      exact hmoves.counted

/-- A call without echo whose chunk is counted as a whole. -/
theorem call_of_counted {m : ℕ} (h : s.pty.Sound t) (hpassed : s.passed = List.range s.written)
    (hreach : s.reach ≤ n.toNat) (hecho : ¬ Echoes t s.pty)
    (hm : chunk (s.pty.target t).contents.length n.toNat = m) (hlt : m < 2 ^ 32)
    (hle : s.written + m ≤ n.toNat)
    (hcounted : Editor.Counted (s.pty.target t).ignoreBs (s.pty.target t).contents
      (prefixOf (fun i ↦ b (s.written + i)) m)) (behind : ℕ → Byte) :
    ∃ s₁, s.call behind t b n = some s₁ ∧ Moves t b n.toNat s s₁ m ∧ s₁.reach ≤ n.toNat := by
  obtain ⟨r, hr⟩ := writeFunc_returns h (fun i ↦ b (s.written + i)) behind (hm ▸ hlt)
    fun hyes ↦ absurd hyes hecho
  have hcalled := called_of_eq_some h hr
  have htaken : r.taken = m := hcalled.taken.trans hm
  have hret : r.ret = r.taken := hcalled.ret_eq.mpr (htaken ▸ hcounted)
  refine ⟨_, by rw [call, Option.bind_eq_bind, hr]; rfl, ?_, ?_⟩
  · rw [← htaken]
    exact moves_of_called h hpassed hcalled hret (htaken ▸ hle)
  · exact max_le hreach (by rw [hcalled.reach fun h ↦ hecho h.1, htaken]; exact hle)

/-- **A transfer without echo whose text can be cut in chunks gets done.** -/
theorem done_of_cuts {line text : List Byte} {ignoreBs : Bool}
    (hcuts : Cuts ignoreBs n.toNat line text)
    (h : s.pty.Sound t) (hpassed : s.passed = List.range s.written) (hle : s.written ≤ n.toNat)
    (hreach : s.reach ≤ n.toNat) (hecho : ¬ Echoes t s.pty)
      (hline : (s.pty.target t).contents = line)
    (hbs : (s.pty.target t).ignoreBs = ignoreBs) (htext : rest b n.toNat s.written = text)
    (behind : ℕ → Byte) :
    ∃ s₁, s.call behind t b n = some s₁ ∧
      ∃ tests s', s₁.retry behind t b n tests = some s' ∧ s'.Done n.toNat := by
  induction hcuts generalizing s with
  | last hchunk hlt hcounted =>
    subst hline hbs htext
    have hlength := length_rest b n.toNat s.written
    obtain ⟨s₁, hcall, hmoves, hreach'⟩ := call_of_counted h hpassed hreach hecho hchunk hlt
      (by omega) (by rw [hlength]; exact hcounted) behind
    have hwritten : s₁.written = n.toNat := by
      rw [hmoves.written, hlength]
      omega
    refine ⟨s₁, hcall, 1, s₁, ?_, hwritten, hwritten ▸ hmoves.passed, hreach'⟩
    rw [retry, if_neg (by omega)]
  | @more line text hpos hlt hcounted hrest ih =>
    subst hline hbs htext
    generalize hm : chunk (s.pty.target t).contents.length n.toNat = m at *
    have hlength := length_rest b n.toNat s.written
    have htake : (rest b n.toNat s.written).take m = prefixOf (fun i ↦ b (s.written + i)) m :=
      rest_take b (by omega)
    have hsmall : m < 2 ^ 32 := by
      have hcapacity := capacity_eq
      obtain hall | ⟨-, hroom⟩ := chunk_cases (s.pty.target t).contents.length n.toNat <;> omega
    rw [htake] at hcounted hrest ih
    obtain ⟨s₁, hcall, hmoves, hreach'⟩ := call_of_counted h hpassed hreach hecho hm hsmall
      (by omega) hcounted behind
    have hwritten := hmoves.written
    have hless : s₁.written < n.toNat := by omega
    obtain ⟨s₂, hcall', tests, s', hretry, hdone⟩ := ih (hmoves.sound hless) hmoves.passed hmoves.le
      hreach' (hmoves.echoes.not.mpr hecho) hmoves.line hmoves.ignoreBs
        (by rw [rest_drop, hwritten])
    refine ⟨s₁, hcall, tests + 1, s', ?_, hdone⟩
    rw [retry, if_pos hless, hcall']
    exact hretry

/-- A call with echo that counts something reads the whole size. -/
theorem reach_of_echoes (h : s.pty.Sound t) (hecho : Echoes t s.pty)
    (hs : s.call behind t b n = some s₁) (hne : s₁.written ≠ s.written) :
    s.written + n.toNat ≤ s₁.reach := by
  obtain ⟨r, hr, rfl⟩ := call_eq_some hs
  have hcalled := called_of_eq_some h hr
  have hret : r.ret ≠ 0 := fun hzero ↦ hne (by simp [hzero])
  have hreach := (hcalled.le_reach hecho hret).2
  exact (Nat.add_le_add_left hreach _).trans (le_max_right _ _)

/-- With echo, a transfer does not get done that has some of its bytes left. -/
theorem not_done_of_echoes (h : s.pty.Sound t) (hpassed : s.passed = List.range s.written)
    (hecho : Echoes t s.pty) (hpos : 0 < s.written) (hlt : s.written < n.toNat)
    (hretry : s.retry behind t b n tests = some s') : ¬ s'.Done n.toNat := by
  intro hdone
  induction tests generalizing s with
  | zero => cases hretry
  | succ tests ih =>
    rw [retry, if_pos hlt] at hretry
    obtain ⟨s₁, hcall, hretry⟩ := Option.bind_eq_some_iff.mp hretry
    have hext := retry_extends hretry
    have hmoves := moves_of_done h hpassed hcall hext hdone
    by_cases hsame : s₁.written = s.written
    · have hlt' : s₁.written < n.toNat := hsame.trans_lt hlt
      exact ih (hmoves.sound hlt') hmoves.passed (hmoves.echoes.mpr hecho)
        (hsame ▸ hpos) hlt' hretry
    · have hreach := reach_of_echoes h hecho hcall hsame
      have hle := hext.reach.trans hdone.reach_le
      omega

end Transfer

/-! ## The device -/

/-- A pty whose buffers are not full.  The controller's ignores backspaces in every pty. -/
structure NotFull (p : Pty) : Prop where
  ignoreBs : p.controller.ignoreBs = true
  worker_lt : p.worker.contents.length < capacity
  controller_lt : p.controller.contents.length < capacity

/-- The modes of a pty can be set without harm. -/
theorem NotFull.setAttr (h : p.NotFull) (lflag : U32) : (p.setAttr lflag).NotFull :=
  ⟨h.ignoreBs, h.worker_lt, h.controller_lt⟩

theorem notFull_flushed : flushed.NotFull := by
  have hcapacity := capacity_eq
  have hempty : flushed.worker.contents = [] ∧ flushed.controller.contents = [] := ⟨rfl, rfl⟩
  refine ⟨rfl, ?_, ?_⟩
  · rw [hempty.1, List.length_nil]
    omega
  · rw [hempty.2, List.length_nil]
    omega

theorem NotFull.target_lt (h : p.NotFull) (t : DeviceType) :
    (p.target t).contents.length < capacity := by
  cases t with
  | worker => exact h.controller_lt
  | controller => exact h.worker_lt

theorem NotFull.sound (h : p.NotFull) (t : DeviceType) : p.Sound t :=
  ⟨(h.target_lt t).le, h.ignoreBs, fun _ ↦ h.controller_lt.le⟩

/-- `pty_device::write` returns the number of bytes, has passed each of them once and in order, and
has read no others. -/
def PassesEach (behind : ℕ → Byte) (t : DeviceType) (b : ℕ → Byte) (n : U64) (p : Pty) : Prop :=
  ∃ tests s, deviceWrite behind tests t b n p = some s ∧ s.Done n.toNat

/-- The whole text is one chunk, and counted. -/
structure Whole (c : CharBuffer) (b : ℕ → Byte) (n : ℕ) : Prop where
  chunk : chunk c.contents.length n = n
  lt : n < 2 ^ 32
  counted : Editor.Counted c.ignoreBs c.contents (prefixOf b n)

/-- The writes that the loop is right for. -/
def Suits (t : DeviceType) (b : ℕ → Byte) (n : ℕ) (p : Pty) : Prop :=
  if Echoes t p then Whole (p.target t) b n ∧ EchoInside b n p.controller.contents.length
  else Cuts (p.target t).ignoreBs n (p.target t).contents (prefixOf b n)

/-- A transfer before its first call. -/
def Transfer.start (p : Pty) : Transfer := ⟨p, 0, [], 0⟩

theorem rest_zero (b : ℕ → Byte) (n : ℕ) : rest b n 0 = prefixOf b n := by
  simp [rest]

/-- The device does a call, and then some more. -/
theorem passesEach_iff_retry (b behind : ℕ → Byte) (n : U64) :
    PassesEach behind t b n p ↔ ∃ s₁, (Transfer.start p).call behind t b n = some s₁ ∧
      ∃ tests s', s₁.retry behind t b n tests = some s' ∧ s'.Done n.toNat := by
  have hstart : Transfer.start p = ⟨p, 0, [], 0⟩ := rfl
  constructor
  · rintro ⟨tests, s', hs, hdone⟩
    rw [deviceWrite, Option.bind_eq_bind, Option.bind_eq_some_iff] at hs
    obtain ⟨s₁, hcall, hs⟩ := hs
    refine ⟨s₁, hcall, ?_⟩
    split at hs
    · next heq => exact ⟨1, s', by rw [Transfer.retry, if_neg heq.ge.not_gt, hs], hdone⟩
    · exact ⟨tests, s', hs, hdone⟩
  · rintro ⟨s₁, hcall, tests, s', hretry, hdone⟩
    refine ⟨tests, s', ?_, hdone⟩
    rw [deviceWrite, ← hstart, hcall, Option.bind_eq_bind, Option.bind_some]
    split
    · next heq =>
      cases tests with
      | zero => cases hretry
      | succ tests =>
        rw [Transfer.retry, if_neg heq.ge.not_gt] at hretry
        exact hretry
    · exact hretry

/-- Without echo. -/
theorem passesEach_iff_cuts (h : p.NotFull) (hecho : ¬ Echoes t p) (b behind : ℕ → Byte) (n : U64) :
    PassesEach behind t b n p ↔
      Cuts (p.target t).ignoreBs n.toNat (p.target t).contents (prefixOf b n.toNat) := by
  rw [passesEach_iff_retry, ← rest_zero]
  constructor
  · rintro ⟨s₁, hcall, tests, s', hretry, hdone⟩
    exact Transfer.cuts_of_retry (s := Transfer.start p) (h.sound t) rfl hcall hretry hdone
  · intro hcuts
    exact Transfer.done_of_cuts (s := Transfer.start p) hcuts (h.sound t) rfl (Nat.zero_le _)
      (Nat.zero_le _) hecho rfl rfl rfl behind

theorem start_bytes (p : Pty) (b : ℕ → Byte) : (fun i ↦ b ((Transfer.start p).written + i)) = b :=
  funext fun i ↦ congrArg b (Nat.zero_add i)

/-- With echo. -/
theorem passesEach_iff_whole (h : p.NotFull) (hecho : Echoes t p) (b behind : ℕ → Byte) (n : U64) :
    PassesEach behind t b n p ↔
      Whole (p.target t) b n.toNat ∧ EchoInside b n.toNat p.controller.contents.length := by
  rw [passesEach_iff_retry]
  constructor
  · rintro ⟨s₁, hcall, tests, s', hretry, hdone⟩
    have hext := Transfer.retry_extends hretry
    have hmoves := Transfer.moves_of_done (s := Transfer.start p) (h.sound t) rfl hcall hext hdone
    have hwritten : s₁.written = chunk (p.target t).contents.length n.toNat :=
      hmoves.written.trans (Nat.zero_add _)
    have hall : s₁.written = n.toNat := by
      have hle := hmoves.le
      have hroom := h.target_lt t
      by_contra hne
      have hpos : 0 < s₁.written := by
        obtain hall | ⟨-, hrest⟩ := chunk_cases (p.target t).contents.length n.toNat <;> omega
      exact Transfer.not_done_of_echoes (hmoves.sound (by omega)) hmoves.passed
        (hmoves.echoes.mpr hecho) hpos (by omega) hretry hdone
    have hchunk := hwritten.symm.trans hall
    have hcounted := hmoves.counted
    rw [start_bytes, show (Transfer.start p).pty = p from rfl, hchunk] at hcounted
    refine ⟨⟨hchunk, hchunk ▸ hmoves.lt, hcounted⟩, ?_⟩
    obtain ⟨r, hr, rfl⟩ := Transfer.call_eq_some hcall
    rw [start_bytes] at hr
    have hret : r.ret = n.toNat := (Nat.zero_add _).symm.trans hall
    obtain hzero | hpos := Nat.eq_zero_or_pos n.toNat
    · rw [hzero]
      exact fun i hi ↦ absurd hi (Nat.not_lt_zero i)
    · have hreach : r.reach ≤ n.toNat := by
        have hle := hext.reach.trans hdone.reach_le
        simp only [Transfer.start, Nat.zero_add, Nat.zero_max] at hle
        exact hle
      exact (((called_of_eq_some (h.sound t) hr).inside hecho (by omega)).mp hreach).2
  · rintro ⟨⟨hchunk, hlt, hcounted⟩, hinside⟩
    obtain ⟨r, hr⟩ := writeFunc_returns (h.sound t) b behind (by rw [hchunk]; exact hlt) fun _ ↦ hlt
    have hcalled := called_of_eq_some (h.sound t) hr
    have htaken : r.taken = n.toNat := hcalled.taken.trans hchunk
    have hret : r.ret = n.toNat := (hcalled.ret_eq.mpr (htaken ▸ hcounted)).trans htaken
    have hreach : r.reach ≤ n.toNat := by
      by_cases hzero : r.ret = 0
      · rw [hcalled.reach fun hyes ↦ hyes.2 hzero, htaken]
      · exact (hcalled.inside hecho hzero).mpr ⟨htaken.le, hinside⟩
    have hcall : (Transfer.start p).call behind t b n =
        some ⟨r.pty, n.toNat, List.range n.toNat, r.reach⟩ := by
      rw [Transfer.call, start_bytes, show (Transfer.start p).pty = p from rfl,
        Option.bind_eq_bind, hr]
      simp [Transfer.start, htaken, hret]
    refine ⟨_, hcall, 1, ⟨r.pty, n.toNat, List.range n.toNat, r.reach⟩, ?_, rfl, rfl, hreach⟩
    rw [Transfer.retry, if_neg (lt_irrefl _)]

/-- **The device's write does what it should just if the text suits the line.** -/
theorem passesEach_iff (h : p.NotFull) (t : DeviceType) (b behind : ℕ → Byte) (n : U64) :
    PassesEach behind t b n p ↔ p.Suits t b n.toNat := by
  rw [Suits]
  split
  · next hecho => exact passesEach_iff_whole h hecho b behind n
  · next hecho => exact passesEach_iff_cuts h hecho b behind n

/-- What the worker writes is right if it is taken in one go: a buffer that ignores backspaces is
full after the first chunk that is not the whole. -/
theorem suits_worker (h : p.NotFull) (b : ℕ → Byte) (n : ℕ) :
    p.Suits .worker b n ↔ chunk p.controller.contents.length n = n ∧ n < 2 ^ 32 := by
  have hnot : ¬ Echoes .worker p := by simp [Echoes]
  have hlength := length_prefixOf b n
  have hline : p.target .worker = p.controller := rfl
  rw [Suits, if_neg hnot, hline, h.ignoreBs]
  constructor
  · intro hcuts
    cases hcuts with
    | last hchunk hlt hcounted =>
      rw [hlength] at hchunk hlt
      exact ⟨hchunk, hlt⟩
    | more hpos hchunk hcounted hrest =>
      rw [hlength] at hchunk
      have hroom := h.controller_lt
      generalize hm : chunk p.controller.contents.length n = m at *
      have hfull : m = capacity - p.controller.contents.length := by
        obtain hall | ⟨-, hrest⟩ := chunk_cases p.controller.contents.length n <;> omega
      rw [Editor.foldl_typed_ignoring] at hrest
      have hzero : chunk (p.controller.contents ++ (prefixOf b n).take m).length n = 0 := by
        rw [List.length_append, List.length_take, hlength, chunk_of_lt (by omega)]
        omega
      cases hrest with
      | last hchunk' =>
        rw [hzero, List.length_drop, hlength] at hchunk'
        omega
      | more hpos' => omega
  · rintro ⟨hchunk, hlt⟩
    exact .last (hchunk.trans hlength.symm) (hlength.trans_lt hlt) (Editor.counted_ignoring _ _)

/-- `"hi"`. -/
def greeting (i : ℕ) : Byte := if i = 0 then 0x68 else 0x69

theorem passesEach_greeting : PassesEach (fun _ ↦ nul) .controller greeting 2 flushed := by
  have hcapacity := capacity_eq
  have hchunk (pos m : ℕ) (hpos : pos ≤ 10) : chunk pos m = m := chunk_of_le (by omega)
  have hwhole : Whole flushed.worker greeting 2 :=
    ⟨hchunk _ _ (by decide), by decide, by decide, by decide, trivial⟩
  have hinside : EchoInside greeting 2 0 := by
    intro i hi _
    obtain rfl | rfl : i = 0 ∨ i = 1 := by omega
    · have hfirst : chunk (echoed 0 (prefixOf greeting 0)) 1 = 1 := hchunk 0 1 (by decide)
      omega
    · have hpos : echoed 0 (prefixOf greeting 1) = 1 :=
        (Nat.zero_add _).trans (hchunk 0 1 (by decide))
      rw [hpos, hchunk 1 1 (by decide)]
  have hsuits : flushed.Suits .controller greeting 2 := by
    rw [Suits, if_pos (by decide)]
    exact ⟨hwhole, hinside⟩
  exact (passesEach_iff notFull_flushed .controller greeting (fun _ ↦ nul) 2).mpr hsuits

/-- A backspace on the empty line of a new terminal is tried again for ever. -/
theorem not_passesEach_backspace :
    ¬ PassesEach (fun _ ↦ nul) .controller (fun _ ↦ backspace) 1 flushed := by
  rw [passesEach_iff_whole notFull_flushed (by decide)]
  rintro ⟨⟨-, -, hcounted⟩, -⟩
  exact hcounted.1 ⟨rfl, rfl, rfl⟩

end Pty

end Borrrdex
