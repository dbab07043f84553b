import Borrrdex.Devices.Keyboard
import Borrrdex.Devices.PtyRead
import Borrrdex.Devices.PtyWrite
import Borrrdex.Fterm.Input

/-!
# From the keyboard to the line

A keyboard, the terminal program and a pseudoterminal, with the programs that read from it and write
to it.  An interrupt puts a scan code in the keyboard's ring; `poll` takes up to 16 from it and
writes what they type to the pseudoterminal, which edits its line; a program takes from the front of
the line.  They come in any order.

`keys_edit_line` says that nothing gets lost or mixed up between the keys and the line, however they
come, as long as the ring does not get full, the line has room and the keyboard's loop counter
happens to be zero.  It also says when the terminal gets stuck: `poll` returns unless one of the
keys is a backspace on an empty line.

A call of the terminal program or of a program is one step.  What is behind the `"^["` of the kernel
is the parameter `behind`.
-/

set_option autoImplicit false

namespace Borrrdex

namespace Editor

variable {ignoreBs : Bool}

theorem counted_append {chars chars' line : List Byte} : Counted ignoreBs line (chars ++ chars') ↔
    Counted ignoreBs line chars ∧ Counted ignoreBs (chars.foldl (typed ignoreBs) line) chars' := by
  induction chars generalizing line with
  | nil => simp [Counted]
  | cons ch chars ih => rw [List.cons_append, Counted, ih, Counted, List.foldl_cons, and_assoc]

theorem counted_of_not_mem {chars line : List Byte} (h : backspace ∉ chars) :
    Counted ignoreBs line chars := by
  induction chars generalizing line with
  | nil => trivial
  | cons ch chars ih =>
    obtain ⟨hch, hchars⟩ := not_or.mp (List.mem_cons.not.mp h)
    exact ⟨fun hlost ↦ hch hlost.1.symm, ih hchars⟩

end Editor

namespace Pty

open CharBuffer

variable {p : Pty} {b : ℕ → Byte} {n : U64}

/-- The pseudoterminal's line has room for so many bytes, and the slack that `write` wants. -/
def Room (p : Pty) (m : ℕ) : Prop := p.worker.contents.length + m + 1024 ≤ capacity

/-- A few bytes that are all counted are written in one go. -/
theorem deviceWrite_counted (h : p.Sound .controller) (hroom : p.Room n.toNat)
    (hn : n.toNat < 2 ^ 32)
    (hcounted : Editor.Counted p.worker.ignoreBs p.worker.contents (prefixOf b n.toNat))
    (behind : ℕ → Byte) (tests : ℕ) :
    ∃ s, deviceWrite behind tests .controller b n p = some s ∧ s.pty.Sound .controller ∧
      s.pty.worker.contents =
        (prefixOf b n.toNat).foldl (Editor.typed p.worker.ignoreBs) p.worker.contents ∧
      s.pty.worker.ignoreBs = p.worker.ignoreBs := by
  have hchunk : chunk (p.target .controller).contents.length n.toNat = n.toNat :=
    chunk_of_le (by rw [Room] at hroom; exact le_trans (by rw [target]; omega) hroom)
  obtain ⟨r, hr⟩ := writeFunc_returns (t := .controller) h b behind (hchunk.trans_lt hn) fun _ ↦ hn
  have hcalled := called_of_eq_some h hr
  have htaken : r.taken = n.toNat := hcalled.taken.trans hchunk
  have hret : r.ret = n.toNat := (hcalled.ret_eq.mpr (htaken ▸ hcounted)).trans htaken
  have hline := hcalled.line
  rw [htaken] at hline
  have hlength := Editor.length_foldl_typed_le p.worker.ignoreBs (prefixOf b n.toNat)
    p.worker.contents
  refine ⟨⟨r.pty, n.toNat, List.range n.toNat, r.reach⟩, ?_,
    ⟨?_, hcalled.controller.1, hcalled.controller.2⟩, hline, hcalled.ignoreBs⟩
  · have hcall : (Transfer.start p).call behind .controller b n =
        some ⟨r.pty, n.toNat, List.range n.toNat, r.reach⟩ := by
      rw [Transfer.call, start_bytes, show (Transfer.start p).pty = p from rfl,
        Option.bind_eq_bind, hr]
      simp [Transfer.start, htaken, hret]
    have hstart : (⟨p, 0, [], 0⟩ : Transfer) = Transfer.start p := rfl
    rw [deviceWrite, hstart, hcall, Option.bind_eq_bind, Option.bind_some, if_pos rfl]
  · rw [Room] at hroom
    rw [length_prefixOf] at hlength
    exact (congrArg List.length hline).trans_le (hlength.trans (by omega))

/-- A transfer whose backspace has nothing to take back. -/
structure Stuck (b : ℕ → Byte) (s : Transfer) : Prop where
  written : s.written = 0
  sound : s.pty.Sound .controller
  line : s.pty.worker.contents = []
  ignoreBs : s.pty.worker.ignoreBs = false
  backspace : b 0 = backspace

theorem Stuck.call {behind : ℕ → Byte} {s s₁ : Transfer} (h : Stuck b s)
    (hs : s.call behind .controller b 1 = some s₁) : Stuck b s₁ := by
  have hcapacity := capacity_eq
  obtain ⟨r, hr, rfl⟩ := Transfer.call_eq_some hs
  have hcalled := called_of_eq_some h.sound hr
  have hline : (s.pty.target .controller).contents = [] := h.line
  have hbs : (s.pty.target .controller).ignoreBs = false := h.ignoreBs
  have htaken : r.taken = 1 := by
    rw [hcalled.taken, hline]
    exact chunk_of_le (by rw [List.length_nil]; omega)
  have htyped := hcalled.line
  have hret : r.ret = 0 := by
    have hcounted := hcalled.ret_eq
    have hle := hcalled.ret_le
    rw [htaken, prefixOf_succ, prefixOf_zero, hline, hbs, h.written] at hcounted
    have hne : r.ret ≠ 1 := fun heq ↦ (hcounted.mp heq).1 ⟨h.backspace, rfl, rfl⟩
    omega
  have hempty : (r.pty.target .controller).contents = [] := by
    rw [htyped, htaken, prefixOf_succ, prefixOf_zero, hline, hbs, h.written]
    exact if_pos ⟨h.backspace, rfl⟩
  refine ⟨by rw [h.written, hret], ⟨?_, hcalled.controller.1, hcalled.controller.2⟩, hempty,
    hcalled.ignoreBs.trans hbs, h.backspace⟩
  rw [hempty]
  exact Nat.zero_le _

theorem Stuck.retry {s : Transfer} (h : Stuck b s) (behind : ℕ → Byte) (tests : ℕ) :
    s.retry behind .controller b 1 tests = none := by
  induction tests generalizing s with
  | zero => rfl
  | succ tests ih =>
    rw [Transfer.retry, if_pos (by rw [h.written]; decide)]
    refine Option.bind_eq_none_iff.mpr fun s₁ hs ↦ ih (h.call hs)

/-- **A backspace on an empty line is tried again for ever.** -/
theorem deviceWrite_lost (h : p.Sound .controller) (hline : p.worker.contents = [])
    (hbs : p.worker.ignoreBs = false) (hb : b 0 = backspace) (behind : ℕ → Byte) (tests : ℕ) :
    deviceWrite behind tests .controller b 1 p = none := by
  have hstuck : Stuck b ⟨p, 0, [], 0⟩ := ⟨rfl, h, hline, hbs, hb⟩
  rw [deviceWrite, Option.bind_eq_bind]
  refine Option.bind_eq_none_iff.mpr fun s hs ↦ ?_
  have hstuck' := hstuck.call hs
  rw [if_neg (by rw [hstuck'.written]; decide)]
  exact hstuck'.retry behind tests

end Pty

namespace Fterm

open Pty CharBuffer

/-- What happens to the line of a terminal. -/
inductive Edit
  | type (ch : Byte)
  | take (n : ℕ)

namespace Edit

def apply (ignoreBs : Bool) (line : List Byte) : Edit → List Byte
  | .type ch => Editor.typed ignoreBs line ch
  | .take n => line.drop n

/-- What has been typed. -/
def char? : Edit → Option Byte
  | .type ch => some ch
  | .take _ => none

theorem foldl_type (ignoreBs : Bool) (line text : List Byte) :
    (text.map Edit.type).foldl (apply ignoreBs) line = text.foldl (Editor.typed ignoreBs) line :=
  List.foldl_map

theorem filterMap_type (text : List Byte) : (text.map Edit.type).filterMap char? = text := by
  rw [List.filterMap_map]
  exact List.filterMap_some

end Edit

/-- The keyboard, the terminal program's modifiers and the pseudoterminal.  `edits` are the bytes
that `on_key` has written and the reads that have taken something, in their order. -/
structure Console where
  traffic : Keyboard.Traffic
  input : KeyboardState
  pty : Pty
  edits : List Edit

namespace Console

/-- What happens.  `press` is the interrupt of a key; `poll` is the terminal program's, with the
counter of the keyboard's `read`; `refresh` is its read of what programs have written.  These are
`print` and `read`. -/
inductive Act
  | press (scan : Byte)
  | poll (i : Byte) (buf : ℕ → Byte) (tests : ℕ)
  | refresh (buf : ℕ → Byte)
  | print (b : ℕ → Byte) (n : U64)
  | read (pc : ReaderPc) (buf : ℕ → Byte) (n : U64)

/-- The call of `write` in `on_key`. -/
def write (behind : ℕ → Byte) (tests : ℕ) (text : List Byte) (c : Console) : Option Console :=
  if text = [] then some c
  else do
    let s ← c.pty.deviceWrite behind tests .controller (fun i ↦ text.getD i 0)
      (BitVec.ofNat 64 text.length)
    return { c with pty := s.pty, edits := c.edits ++ text.map .type }

/-- The body of the loop of `poll`. -/
def takeScan (behind : ℕ → Byte) (tests : ℕ) (c : Console) (scan : Byte) : Option Console :=
  Console.write behind tests (inputManager.say c.input scan)
    { c with input := inputManager.step c.input scan }

/-- `input_manager::poll`. -/
def poll (behind : ℕ → Byte) (i : Byte) (buf : ℕ → Byte) (tests : ℕ) (c : Console) :
    Option Console := do
  let (count, s) ← c.traffic.keyboard.read i buf 16
  let scans := prefixOf s.dst count
  scans.foldlM (takeScan behind tests)
    { c with
      traffic := { c.traffic with
        keyboard := s.keyboard
        returned := c.traffic.returned ++ scans } }

def step (behind : ℕ → Byte) (c : Console) : Act → Option Console
  | .press scan => (c.traffic.step (.write (fun _ ↦ scan) 1)).map ({ c with traffic := · })
  | .poll i buf tests => c.poll behind i buf tests
  | .refresh buf => (c.pty.controller.read buf 512).map fun (_, s) ↦
      { c with pty := { c.pty with controller := s.buffer } }
  | .print b n => (c.pty.workerWrite b n).map fun r ↦ { c with pty := r.pty }
  | .read pc buf n =>
    match c.pty.workerRead buf n pc with
    | some (.returns count _ p) => some { c with pty := p, edits := c.edits ++ [.take count.toNat] }
    | _ => none

end Console

/-- A console with a new keyboard and a new pseudoterminal, in any mode. -/
def console (behind : ℕ → Byte) : Machine Console Console.Act where
  initial c := Keyboard.trafficMachine.initial c.traffic ∧ c.input = .start ∧
    (∃ lflag, c.pty = flushed.setAttr lflag) ∧ c.edits = []
  step := Console.step behind

/-- The ring and the line have room, the keyboard's counter is zero if it matters, and programs
print in small pieces and do not read from a long line. -/
def Console.Fits (c : Console) : Console.Act → Prop
  | .press scan => c.traffic.keyboard.Fits (.write (fun _ ↦ scan) 1)
  | .poll i buf _ => c.traffic.keyboard.Fits (.read i buf 16) ∧ c.pty.Room 48
  | .refresh _ => True
  | .print _ n => n.toNat ≤ 1024
  | .read _ _ _ => c.pty.worker.contents.length ≤ 1024

/-! ## What a key writes -/

variable {behind : ℕ → Byte} {tests : ℕ} {c c' : Console} {text : List Byte}

theorem length_le_of_isKey (h : text = [] ∨ IsKey text) : text.length ≤ 3 := by
  obtain rfl | ⟨ch, -, rfl⟩ | hsequence := h
  · exact Nat.zero_le _
  · exact Nat.le_add_left 1 2
  · have hall : ∀ text ∈ keySequences, text.length ≤ 3 := by decide
    exact hall text hsequence

/-- What is not counted of a key is a backspace. -/
theorem counted_or_lost (h : text = [] ∨ IsKey text) (ignoreBs : Bool) (line : List Byte) :
    Editor.Counted ignoreBs line text ∨ text = [backspace] ∧ ignoreBs = false ∧ line = [] := by
  obtain rfl | ⟨ch, -, rfl⟩ | hsequence := h
  · exact .inl trivial
  · by_cases hlost : Editor.Lost ignoreBs line ch
    · exact .inr ⟨congrArg ([·]) hlost.1, hlost.2⟩
    · exact .inl ⟨hlost, trivial⟩
  · have hall : ∀ text ∈ keySequences, backspace ∉ text := by decide
    exact .inl (Editor.counted_of_not_mem (hall text hsequence))

theorem prefixOf_getD (text : List Byte) :
    prefixOf (fun i ↦ text.getD i 0) text.length = text :=
  List.ext_getElem (length_prefixOf _ _) fun i _ hi ↦ by simp [prefixOf, hi]

/-- What comes of a text that has been written, and of the line. -/
structure Wrote (c c' : Console) (text : List Byte) : Prop where
  traffic : c'.traffic = c.traffic
  edits : c'.edits = c.edits ++ text.map .type
  line : c'.pty.worker.contents =
    text.foldl (Editor.typed c.pty.worker.ignoreBs) c.pty.worker.contents
  ignoreBs : c'.pty.worker.ignoreBs = c.pty.worker.ignoreBs
  sound : c'.pty.Sound .controller

theorem toNat_length (htext : text = [] ∨ IsKey text) :
    (BitVec.ofNat 64 text.length).toNat = text.length := by
  have hlength := length_le_of_isKey htext
  rw [BitVec.toNat_ofNat, Nat.mod_eq_of_lt (by omega)]

/-- **A key that is counted is written**, -/
theorem write_of_counted (htext : text = [] ∨ IsKey text) (h : c.pty.Sound .controller)
    (hroom : c.pty.Room 3)
    (hcounted : Editor.Counted c.pty.worker.ignoreBs c.pty.worker.contents text)
    (behind : ℕ → Byte) (tests : ℕ) :
    ∃ c', c.write behind tests text = some c' ∧ c'.input = c.input ∧ Wrote c c' text := by
  have hlength := length_le_of_isKey htext
  have hsmall := toNat_length htext
  have hbytes := prefixOf_getD text
  by_cases hnil : text = []
  · rw [hnil]
    exact ⟨c, rfl, rfl, rfl, (List.append_nil _).symm, rfl, rfl, h⟩
  · obtain ⟨s, hs, hsound, hline, hbs⟩ := deviceWrite_counted (p := c.pty)
      (b := fun i ↦ text.getD i 0) (n := BitVec.ofNat 64 text.length) h
      (by rw [Room] at *; omega) (by omega) (by rw [hsmall, hbytes]; exact hcounted) behind tests
    rw [hsmall, hbytes] at hline
    rw [Console.write, if_neg hnil, hs]
    exact ⟨_, rfl, rfl, rfl, rfl, hline, hbs, hsound⟩

/-- and no other. -/
theorem counted_of_write (htext : text = [] ∨ IsKey text) (h : c.pty.Sound .controller)
    (hs : c.write behind tests text = some c') :
    Editor.Counted c.pty.worker.ignoreBs c.pty.worker.contents text := by
  obtain hcounted | ⟨rfl, hbs, hline⟩ :=
    counted_or_lost htext c.pty.worker.ignoreBs c.pty.worker.contents
  · exact hcounted
  · have hstuck := deviceWrite_lost (b := fun i ↦ [backspace].getD i 0) h hline hbs rfl behind tests
    rw [Console.write, if_neg (List.cons_ne_nil _ _)] at hs
    obtain ⟨s, hwrite, -⟩ := Option.bind_eq_some_iff.mp hs
    exact nomatch hstuck.symm.trans hwrite

/-! ## What `poll` does -/

theorem Wrote.trans {c₁ : Console} {text' : List Byte} (h : Wrote c c₁ text)
    (h' : Wrote c₁ c' text') : Wrote c c' (text ++ text') where
  traffic := h'.traffic.trans h.traffic
  edits := by rw [h'.edits, h.edits, List.append_assoc, List.map_append]
  line := by rw [h'.line, h.ignoreBs, h.line, List.foldl_append]
  ignoreBs := h'.ignoreBs.trans h.ignoreBs
  sound := h'.sound

theorem Wrote.room {m : ℕ} (h : Wrote c c' text) (hlength : text.length ≤ 3)
    (hroom : c.pty.Room (m + 3)) : c'.pty.Room m := by
  have hle := Editor.length_foldl_typed_le c.pty.worker.ignoreBs text c.pty.worker.contents
  rw [← h.line] at hle
  rw [Room] at *
  omega

/-- One scan code, whose key is counted. -/
theorem takeScan_of_counted {scan : Byte} (h : c.pty.Sound .controller) (hroom : c.pty.Room 3)
    (hcounted : Editor.Counted c.pty.worker.ignoreBs c.pty.worker.contents
      (inputManager.say c.input scan)) (behind : ℕ → Byte) (tests : ℕ) :
    ∃ c', c.takeScan behind tests scan = some c' ∧ c'.input = inputManager.step c.input scan ∧
      Wrote c c' (inputManager.say c.input scan) := by
  obtain ⟨c', hwrite, hinput, hwrote⟩ := write_of_counted
    (c := { c with input := inputManager.step c.input scan }) (say_isKey c.input scan) h hroom
    hcounted behind tests
  exact ⟨c', hwrite, hinput, hwrote.traffic, hwrote.edits, hwrote.line, hwrote.ignoreBs,
    hwrote.sound⟩

/-- **Scan codes whose keys are counted are taken**, -/
theorem takeScans_of_counted {scans : List Byte} (h : c.pty.Sound .controller)
    (hroom : c.pty.Room (3 * scans.length))
    (hcounted : Editor.Counted c.pty.worker.ignoreBs c.pty.worker.contents
      (inputManager.output c.input scans)) (behind : ℕ → Byte) (tests : ℕ) :
    ∃ c', scans.foldlM (Console.takeScan behind tests) c = some c' ∧
      c'.input = inputManager.state c.input scans ∧
      Wrote c c' (inputManager.output c.input scans) := by
  induction scans generalizing c with
  | nil => exact ⟨c, rfl, rfl, rfl, (List.append_nil _).symm, rfl, rfl, h⟩
  | cons scan scans ih =>
    rw [Transducer.output_cons, Editor.counted_append] at hcounted
    rw [List.length_cons, Nat.mul_succ] at hroom
    have htext := say_isKey c.input scan
    obtain ⟨c₁, hscan, hinput, hwrote⟩ := takeScan_of_counted h (by rw [Room] at *; omega)
      hcounted.1 behind tests
    have hrest := hcounted.2
    rw [← hwrote.line, ← hwrote.ignoreBs] at hrest
    obtain ⟨c', hscans, hstate, hwrote'⟩ := ih hwrote.sound
      (hwrote.room (length_le_of_isKey htext) hroom) (by rw [hinput]; exact hrest)
    rw [hinput] at hstate hwrote'
    refine ⟨c', ?_, hstate, hwrote.trans hwrote'⟩
    rw [List.foldlM_cons, hscan]
    exact hscans

/-- and no others. -/
theorem counted_of_takeScans {scans : List Byte} (h : c.pty.Sound .controller)
    (hroom : c.pty.Room (3 * scans.length))
    (hs : scans.foldlM (Console.takeScan behind tests) c = some c') :
    Editor.Counted c.pty.worker.ignoreBs c.pty.worker.contents
      (inputManager.output c.input scans) := by
  induction scans generalizing c with
  | nil => trivial
  | cons scan scans ih =>
    rw [List.length_cons, Nat.mul_succ] at hroom
    have htext := say_isKey c.input scan
    rw [List.foldlM_cons] at hs
    obtain ⟨c₁, hscan, hscans⟩ := Option.bind_eq_some_iff.mp hs
    have hfirst := counted_of_write (c := { c with input := inputManager.step c.input scan })
      htext h hscan
    obtain ⟨c₂, htake, hinput, hwrote⟩ := takeScan_of_counted h (by rw [Room] at *; omega)
      hfirst behind tests
    obtain rfl : c₂ = c₁ := Option.some.inj (htake.symm.trans hscan)
    have hrest := ih hwrote.sound (hwrote.room (length_le_of_isKey htext) hroom) hscans
    rw [hinput, hwrote.line, hwrote.ignoreBs] at hrest
    rw [Transducer.output_cons, Editor.counted_append]
    exact ⟨hfirst, hrest⟩

/-! ## Every order of steps -/

/-- **The invariant.**  The ring is a queue, the modifiers and what has been typed are those of the
scan codes that have been polled, and the line is what has been done to it. -/
structure Console.Good (c : Console) : Prop where
  queue : ∃ q, c.traffic.Refines q
  input : c.input = inputManager.state .start c.traffic.returned
  typed : c.edits.filterMap Edit.char? = sent c.traffic.returned
  line : c.pty.worker.contents = c.edits.foldl (Edit.apply c.pty.worker.ignoreBs) []
  sound : c.pty.Sound .controller

namespace Console

theorem Good.initial (h : (console behind).initial c) : c.Good := by
  obtain ⟨htraffic, hinput, ⟨lflag, hpty⟩, hedits⟩ := h
  have hnothing : c.traffic.returned = [] := htraffic.2.2
  refine ⟨Keyboard.Traffic.exists_refines (.initial htraffic), ?_, ?_, ?_, ?_⟩
  · rw [hinput, hnothing]
    rfl
  · rw [hedits, hnothing]
    rfl
  · rw [hedits, hpty]
    rfl
  · rw [hpty]
    exact (notFull_flushed.setAttr lflag).sound .controller

theorem Good.press {scan : Byte} (h : c.Good)
    (hfits : c.traffic.keyboard.Fits (.write (fun _ ↦ scan) 1))
    (hs : c.step behind (.press scan) = some c') : c'.Good := by
  obtain ⟨traffic, htraffic, rfl⟩ := Option.map_eq_some_iff.mp hs
  obtain ⟨q, hq⟩ := h.queue
  have hreturned : traffic.returned = c.traffic.returned := by
    obtain ⟨_, -, rfl⟩ := Option.map_eq_some_iff.mp htraffic
    rfl
  refine ⟨⟨_, hq.step hfits htraffic⟩, ?_, ?_, h.line, h.sound⟩
  · rw [hreturned]
    exact h.input
  · rw [hreturned]
    exact h.typed

/-- A poll takes the first 16 scan codes that are pending. -/
theorem poll_eq {i : Byte} {buf : ℕ → Byte} (h : c.Good)
    (hfits : c.traffic.keyboard.Fits (.read i buf 16)) (behind : ℕ → Byte) (tests : ℕ) :
    ∃ traffic : Keyboard.Traffic, (∃ q, traffic.Refines q) ∧
      traffic.returned = c.traffic.returned ++ c.traffic.keyboard.pending.take 16 ∧
      c.poll behind i buf tests = (c.traffic.keyboard.pending.take 16).foldlM
        (takeScan behind tests) { c with traffic := traffic } := by
  obtain ⟨q, hq⟩ := h.queue
  obtain ⟨s, hread, hbytes, -⟩ := Keyboard.read_of_fits hq.ok hfits buf
  have hscans : prefixOf s.dst (c.traffic.keyboard.toRead 16) =
      c.traffic.keyboard.pending.take 16 := by
    rw [hbytes, List.take_eq_take_min (i := 16), Keyboard.length_pending]
    rfl
  have hstep : c.traffic.step (.read i buf 16) = some
      { c.traffic with
        keyboard := s.keyboard
        returned := c.traffic.returned ++ c.traffic.keyboard.pending.take 16 } := by
    rw [Keyboard.Traffic.step, hread, Option.map_some, ← hscans]
  refine ⟨_, ⟨_, hq.step hfits hstep⟩, rfl, ?_⟩
  rw [poll, hread]
  simp only [Option.bind_eq_bind, Option.bind_some, hscans]

theorem Good.poll {i : Byte} {buf : ℕ → Byte} (h : c.Good)
    (hfits : c.traffic.keyboard.Fits (.read i buf 16)) (hroom : c.pty.Room 48)
    (hs : c.step behind (.poll i buf tests) = some c') : c'.Good := by
  obtain ⟨traffic, hqueue, hreturned, hpoll⟩ := poll_eq h hfits behind tests
  have hfew : (c.traffic.keyboard.pending.take 16).length ≤ 16 := List.length_take_le _ _
  generalize c.traffic.keyboard.pending.take 16 = scans at *
  have hs' : scans.foldlM (takeScan behind tests) { c with traffic := traffic } = some c' :=
    hpoll.symm.trans hs
  have hroom' : c.pty.Room (3 * scans.length) := by
    rw [Room] at *
    omega
  have hcounted := counted_of_takeScans (c := { c with traffic := traffic }) h.sound hroom' hs'
  obtain ⟨c₁, hscans, hinput, hwrote⟩ := takeScans_of_counted
    (c := { c with traffic := traffic }) h.sound hroom' hcounted behind tests
  obtain rfl : c₁ = c' := Option.some.inj (hscans.symm.trans hs')
  refine ⟨?_, ?_, ?_, ?_, hwrote.sound⟩
  · rw [hwrote.traffic]
    exact hqueue
  · rw [hinput, hwrote.traffic, hreturned, Transducer.state_append, ← h.input]
  · rw [hwrote.edits, List.filterMap_append, Edit.filterMap_type, h.typed, hwrote.traffic,
      hreturned, sent, sent, Transducer.output_append, ← h.input]
  · rw [hwrote.line, hwrote.ignoreBs, hwrote.edits, List.foldl_append, ← h.line, Edit.foldl_type]

theorem Good.refresh {buf : ℕ → Byte} (h : c.Good)
    (hs : c.step behind (.refresh buf) = some c') : c'.Good := by
  obtain ⟨⟨count, s⟩, hread, rfl⟩ := Option.map_eq_some_iff.mp hs
  have hfew := toNat_available c.pty.controller 512
  have hsize : (512 : U64).toNat = 512 := rfl
  have hsmall : (c.pty.controller.available 512).toNat ≤ 1024 := by omega
  obtain ⟨s', hread', htaken⟩ := c.pty.controller.read_takes buf 512 hsmall
  obtain rfl : s' = s := congrArg Prod.snd (Option.some.inj (hread'.symm.trans hread))
  refine ⟨h.queue, h.input, h.typed, h.line, h.sound.target_le,
    htaken.ignoreBs.trans h.sound.ignoreBs, fun _ ↦ ?_⟩
  have hle := h.sound.controller_le rfl
  rw [length_contents] at *
  rw [htaken.position, BitVec.toNat_sub_of_le (available_le _ _)]
  exact (Nat.sub_le _ _).trans hle

theorem Good.print {b : ℕ → Byte} {n : U64} (h : c.Good) (hn : n.toNat ≤ 1024)
    (hs : c.step behind (.print b n) = some c') : c'.Good := by
  rw [step, Option.map_eq_some_iff] at hs
  obtain ⟨r, hr, rfl⟩ := hs
  obtain ⟨s, hwrite, -, -, hle, hbs⟩ :=
    write_few h.sound.ignoreBs (h.sound.controller_le rfl) b hn
  rw [workerWrite, hwrite, Option.bind_eq_bind, Option.bind_some] at hr
  obtain rfl := Option.some.inj hr
  exact ⟨h.queue, h.input, h.typed, h.line, h.sound.target_le, hbs, fun _ ↦ hle⟩

/-- A read that returns has taken what is available. -/
theorem workerRead_returns {p p' : Pty} {pc : ReaderPc} {buf dst : ℕ → Byte} {n count : U64}
    (hs : p.workerRead buf n pc = some (.returns count dst p')) :
    ∃ s, p.worker.read buf n = some (count, s) ∧ p' = { p with worker := s.buffer } := by
  have hread : p.readWorker buf n = some (.returns count dst p') := by
    cases pc with
    | lines =>
      rw [workerRead_lines] at hs
      split at hs
      · cases hs
      · exact hs
    | data =>
      rw [workerRead_data] at hs
      split at hs
      · cases hs
      · exact hs
  obtain ⟨⟨m, s⟩, hbytes, heq⟩ := Option.map_eq_some_iff.mp hread
  cases heq
  exact ⟨s, hbytes, rfl⟩

theorem Good.read {pc : ReaderPc} {buf : ℕ → Byte} {n : U64} (h : c.Good)
    (hshort : c.pty.worker.contents.length ≤ 1024)
    (hs : c.step behind (.read pc buf n) = some c') : c'.Good := by
  rw [step] at hs
  split at hs
  · next count dst p hreturns =>
    obtain ⟨s, hread, rfl⟩ := workerRead_returns hreturns
    obtain rfl := Option.some.inj hs
    rw [length_contents] at hshort
    have hfew := toNat_available c.pty.worker n
    obtain ⟨s', hread', htaken⟩ := c.pty.worker.read_takes buf n (by omega)
    obtain ⟨rfl, rfl⟩ := Prod.mk.inj (Option.some.inj (hread'.symm.trans hread))
    have hrest := htaken.contents (available_le _ _) (.inr hshort)
    refine ⟨h.queue, h.input, ?_, ?_, ?_, h.sound.ignoreBs, h.sound.controller_le⟩
    · rw [List.filterMap_append, h.typed]
      exact List.append_nil _
    · show s'.buffer.contents = List.foldl (Edit.apply s'.buffer.ignoreBs) [] (c.edits ++ _)
      rw [hrest, htaken.ignoreBs, List.foldl_append, ← h.line]
      rfl
    · show s'.buffer.contents.length ≤ capacity
      rw [hrest, List.length_drop]
      exact (Nat.sub_le _ _).trans h.sound.target_le
  · cases hs

/-- **A step that fits keeps the invariant.** -/
theorem Good.step {act : Act} (h : c.Good) (hfits : c.Fits act)
    (hs : c.step behind act = some c') : c'.Good := by
  cases act with
  | press scan => exact h.press hfits hs
  | poll i buf tests => exact h.poll hfits.1 hfits.2 hs
  | refresh buf => exact h.refresh hs
  | print b n => exact h.print hfits hs
  | read pc buf n => exact h.read hfits hs

theorem Good.run (h : (console behind).Reaches Fits c) : c.Good :=
  h.invariant (fun _ ↦ Good.initial) fun _ _ _ hgood hfits hs ↦ hgood.step hfits hs

/-- **A poll returns just if its keys are counted.** -/
theorem Good.poll_returns_iff {i : Byte} {buf : ℕ → Byte} (h : c.Good)
    (hfits : c.Fits (.poll i buf tests)) (behind : ℕ → Byte) :
    (∃ c', c.step behind (.poll i buf tests) = some c') ↔
      Editor.Counted c.pty.worker.ignoreBs c.pty.worker.contents
        (inputManager.output c.input (c.traffic.keyboard.pending.take 16)) := by
  obtain ⟨traffic, -, -, hpoll⟩ := poll_eq h hfits.1 behind tests
  have hfew : (c.traffic.keyboard.pending.take 16).length ≤ 16 := List.length_take_le _ _
  have hroom : c.pty.Room (3 * (c.traffic.keyboard.pending.take 16).length) := by
    have hroom := hfits.2
    rw [Room] at *
    omega
  constructor
  · rintro ⟨c', hs⟩
    exact counted_of_takeScans (c := { c with traffic := traffic }) h.sound hroom
      (hpoll.symm.trans hs)
  · intro hcounted
    obtain ⟨c', hscans, -⟩ := takeScans_of_counted (c := { c with traffic := traffic }) h.sound
      hroom hcounted behind tests
    exact ⟨c', hpoll.trans hscans⟩

end Console

/-- A new console, in the mode of a new pseudoterminal. -/
def newConsole : Console := ⟨Keyboard.Traffic.fresh, .start, flushed.setAttr flushed.lflag, []⟩

end Fterm

end Borrrdex
